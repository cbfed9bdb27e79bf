import ComponentAnalysis.Proofs.Component.BodyDeclarations

/-! Which statements at the top of a file declare a name at run time, and by which of their nodes.
-/
namespace ComponentAnalysis

namespace Tree

/-- A specifier of an import binds a local name at run time. -/
inductive Specifies (name : String) : Tree → Prop where
  | item (s s' s'' : Span) (cs cs' : List Tree) (kind : Kind)
      (hKind : (∃ text, kind = .name text) ∨ ∃ text, kind = .string text) :
      Specifies name
        (.node (.importNamed false) s [.node kind s' cs, .node (.binding name) s'' cs'])
  | defaultItem (s s' : Span) (cs : List Tree) :
      Specifies name (.node .importDefault s [.node (.binding name) s' cs])
  | module (s s' : Span) (cs : List Tree) :
      Specifies name (.node .importNamespace s [.node (.binding name) s' cs])

/-- A top-level statement declares a name at run time by one of its nodes: by a specifier of an
import, or as the declaration in it does. -/
inductive ModuleDeclares (name : String) (t d : Tree) : Prop where
  | specifier (hKind : t.kind = .importDeclaration false) (hMem : d ∈ t.children)
      (h : d.Specifies name)
  | declaration (h : t.declared.Declares name d)

/-- The nodes by which a top-level statement may declare names. -/
def moduleNodes (t : Tree) : List Tree :=
  match t.kind with
  | .importDeclaration _ => t.children
  | _ => t.declared.declarationNodes

/-- The names that a top-level statement declares by one of its nodes. -/
def moduleNamesAt (t d : Tree) : List String :=
  match t.kind with
  | .importDeclaration typeOnly =>
    ((specifierName? t.moduleName typeOnly d).filter fun n => !n.record.isType).toList.map
      ImportedName.localName
  | _ => t.declared.namesAt d

/-- The names that an import is found to bind at run time are those of its specifiers. -/
theorem specifies_iff (source : String) {d : Tree} {name : String} {typeOnly : Bool} :
    (∃ n, specifierName? source typeOnly d = some n ∧ n.record.isType = false ∧
      n.localName = name) ↔ typeOnly = false ∧ d.Specifies name := by
  constructor
  · rintro ⟨n, hName, hType, rfl⟩
    unfold specifierName? at hName
    split at hName <;> cases hName
    · exact ⟨hType, Specifies.defaultItem _ _ _⟩
    · exact ⟨hType, Specifies.module _ _ _⟩
    · obtain ⟨hOnly, rfl⟩ := Bool.or_eq_false_iff.mp hType
      exact ⟨hOnly, Specifies.item _ _ _ _ _ _ (Or.inl ⟨_, rfl⟩)⟩
    · obtain ⟨hOnly, rfl⟩ := Bool.or_eq_false_iff.mp hType
      exact ⟨hOnly, Specifies.item _ _ _ _ _ _ (Or.inr ⟨_, rfl⟩)⟩
  · rintro ⟨rfl, h⟩
    cases h with
    | item s s' s'' cs cs' kind hKind =>
        rcases hKind with ⟨text, rfl⟩ | ⟨text, rfl⟩ <;> exact ⟨_, rfl, rfl, rfl⟩
    | defaultItem => exact ⟨_, rfl, rfl, rfl⟩
    | module => exact ⟨_, rfl, rfl, rfl⟩

theorem exportableForm_declared_of_import {t : Tree} {typeOnly : Bool}
    (h : t.kind = .importDeclaration typeOnly) : t.declared.exportableForm = .other := by
  cases t with
  | node kind span children =>
      obtain rfl : kind = _ := h
      rfl

section

variable {t : Tree} (hOther : ∀ typeOnly, t.kind ≠ .importDeclaration typeOnly)

include hOther

theorem moduleNodes_of_not_import : t.moduleNodes = t.declared.declarationNodes := by
  unfold moduleNodes
  split
  · exact absurd ‹_› (hOther _)
  · rfl

theorem moduleNamesAt_of_not_import (d : Tree) : t.moduleNamesAt d = t.declared.namesAt d := by
  unfold moduleNamesAt
  split
  · exact absurd ‹_› (hOther _)
  · rfl

end

/-- A top-level statement declares a name by those of its nodes that have it. -/
theorem moduleDeclares_iff {t d : Tree} {name : String} :
    t.ModuleDeclares name d ↔ d ∈ t.moduleNodes ∧ name ∈ t.moduleNamesAt d := by
  by_cases hImport : ∃ typeOnly, t.kind = .importDeclaration typeOnly
  · -- An import declares by its specifiers only.
    obtain ⟨typeOnly, hKind⟩ := hImport
    have hNone : ¬ t.declared.Declares name d := by
      intro h
      have hName := (declares_iff.mp h).2
      rw [namesAt, exportableForm_declared_of_import hKind] at hName
      cases hName
    have hNodes : t.moduleNodes = t.children := by simp only [moduleNodes, hKind]
    have hNames : name ∈ t.moduleNamesAt d ↔ typeOnly = false ∧ d.Specifies name := by
      rw [← specifies_iff t.moduleName]
      simp [moduleNamesAt, hKind, and_assoc]
    rw [hNodes, hNames]
    constructor
    · rintro (⟨hKind', hMem, h⟩ | ⟨h⟩)
      · obtain rfl : typeOnly = false := Kind.importDeclaration.inj (hKind.symm.trans hKind')
        exact ⟨hMem, rfl, h⟩
      · exact absurd h hNone
    · rintro ⟨hMem, rfl, h⟩
      exact ModuleDeclares.specifier hKind hMem h
  · have hOther : ∀ typeOnly, t.kind ≠ .importDeclaration typeOnly := not_exists.mp hImport
    rw [moduleNodes_of_not_import hOther, moduleNamesAt_of_not_import hOther, ← declares_iff]
    constructor
    · rintro (⟨hKind, -, -⟩ | ⟨h⟩)
      · exact absurd hKind (hOther false)
      · exact h
    · exact ModuleDeclares.declaration

end Tree

end ComponentAnalysis
