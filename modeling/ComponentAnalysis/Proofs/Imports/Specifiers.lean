import ComponentAnalysis.Proofs.Component.ModuleDeclarations
import ComponentAnalysis.Proofs.Imports.Callees

/-! The specifiers of import declarations, as the imports of a file and the bindings of its
components read them. Each reading has its own way through a declaration and its own test of what is
there for types only. -/
namespace ComponentAnalysis

namespace Tree

/-- A specifier in an import of a module has a local name and a record. The declaration may be
marked as one of types, and a specifier between braces may have a mark of its own. -/
inductive HasRecord (module : String) (typeOnly : Bool) : Tree → String → ImportRecord → Prop where
  | defaultItem {name : String} {s s' : Span} {cs : List Tree} :
      HasRecord module typeOnly (.node .importDefault s [.node (.binding name) s' cs]) name
        { source := module, isType := typeOnly }
  | wholeModule {name : String} {s s' : Span} {cs : List Tree} :
      HasRecord module typeOnly (.node .importNamespace s [.node (.binding name) s' cs]) name
        { source := module, isType := typeOnly, isNamespace := true }
  | item {name : String} {isType : Bool} {s s' s'' : Span} {cs cs' : List Tree} {kind : Kind}
      (hKind : (∃ text, kind = .name text) ∨ ∃ text, kind = .string text) :
      HasRecord module typeOnly
        (.node (.importNamed isType) s [.node kind s' cs, .node (.binding name) s'' cs']) name
        { source := module, isType := typeOnly || isType }

theorem hasRecord_iff {module : String} {typeOnly : Bool} {d : Tree} {name : String}
    {r : ImportRecord} : d.HasRecord module typeOnly name r ↔
      ∃ n, specifierName? module typeOnly d = some n ∧ n.localName = name ∧ n.record = r := by
  constructor
  · intro h
    cases h with
    | defaultItem => exact ⟨_, rfl, rfl, rfl⟩
    | wholeModule => exact ⟨_, rfl, rfl, rfl⟩
    | item hKind => rcases hKind with ⟨text, rfl⟩ | ⟨text, rfl⟩ <;> exact ⟨_, rfl, rfl, rfl⟩
  · rintro ⟨n, hName, rfl, rfl⟩
    unfold specifierName? at hName
    split at hName <;> cases hName
    · exact .defaultItem
    · exact .wholeModule
    · exact .item (Or.inl ⟨_, rfl⟩)
    · exact .item (Or.inr ⟨_, rfl⟩)

/-- The mark of a declaration counts for all of its specifiers. -/
theorem HasRecord.isType_of_typeOnly {module : String} {d : Tree} {name : String}
    {r : ImportRecord} (h : d.HasRecord module true name r) : r.isType = true := by
  cases h <;> rfl

/-- No name is marked as used in a template from the start. -/
theorem HasRecord.isUsedInTemplate {module : String} {typeOnly : Bool} {d : Tree} {name : String}
    {r : ImportRecord} (h : d.HasRecord module typeOnly name r) : r.isUsedInTemplate = false := by
  cases h <;> rfl

/-- A specifier has a name at run time unless it is marked itself. -/
theorem runtimeName?_eq_some_iff {d : Tree} {name : String} :
    d.runtimeName? = some name ↔ d.Specifies name := by
  constructor
  · intro h
    unfold runtimeName? at h
    split at h <;> cases h
    · exact .defaultItem _ _ _
    · exact .module _ _ _
    · exact .item _ _ _ _ _ _ (Or.inl ⟨_, rfl⟩)
    · exact .item _ _ _ _ _ _ (Or.inr ⟨_, rfl⟩)
  · intro h
    cases h with
    | item s s' s'' cs cs' kind hKind => rcases hKind with ⟨text, rfl⟩ | ⟨text, rfl⟩ <;> rfl
    | defaultItem => rfl
    | module => rfl

/-- Bindings take a specifier at run time just if its record is not one of a type. -/
theorem runtimeName?_eq (module : String) (d : Tree) :
    d.runtimeName? = ((specifierName? module false d).filter fun n => !n.record.isType).map
      ImportedName.localName := by
  refine Option.ext fun name => ?_
  have hRecorded : (∃ n, specifierName? module false d = some n ∧ n.record.isType = false ∧
      n.localName = name) ↔ d.Specifies name := (specifies_iff module).trans (and_iff_right rfl)
  rw [runtimeName?_eq_some_iff, ← hRecorded]
  simp [Option.filter_eq_some_iff, and_assoc]

theorem mem_importedNames_iff {t : Tree} {n : ImportedName} :
    n ∈ t.importedNames ↔ ∃ typeOnly, t.kind = .importDeclaration typeOnly ∧
      ∃ d ∈ t.children, specifierName? t.moduleName typeOnly d = some n := by
  unfold importedNames
  split
  · rename_i typeOnly hKind
    simp [hKind]
  · rename_i hOther
    simp only [List.not_mem_nil, false_iff]
    rintro ⟨typeOnly, hKind, -⟩
    exact hOther typeOnly hKind

/-- What a statement imports has the record of one of its specifiers. -/
theorem exists_hasRecord_of_mem {t : Tree} {n : ImportedName} (h : n ∈ t.importedNames) :
    ∃ typeOnly, t.kind = .importDeclaration typeOnly ∧ ∃ d ∈ t.children,
      d.HasRecord t.moduleName typeOnly n.localName n.record := by
  obtain ⟨typeOnly, hKind, d, hMem, hName⟩ := mem_importedNames_iff.mp h
  exact ⟨typeOnly, hKind, d, hMem, hasRecord_iff.mpr ⟨n, hName, rfl, rfl⟩⟩

theorem filterMap_runtimeName? (module : String) (ds : List Tree) :
    ds.filterMap runtimeName? =
      ((ds.filterMap (specifierName? module false)).filter fun n => !n.record.isType).map
        ImportedName.localName := by
  rw [List.filter_filterMap, List.map_filterMap]
  exact List.filterMap_congr fun d _ => runtimeName?_eq module d

theorem declarationForm_eq_moduleImport_iff {t : Tree} :
    t.declarationForm = .moduleImport ↔ ∃ typeOnly, t.kind = .importDeclaration typeOnly := by
  constructor
  · intro h
    unfold declarationForm at h
    split at h
    · exact ⟨_, ‹_›⟩
    · unfold exportableForm at h
      split at h <;> cases h
  · rintro ⟨typeOnly, hKind⟩
    rw [declarationForm, hKind]

/-- The two readings of an import declaration agree: the names that it binds are those that it
records, apart from types. -/
theorem moduleBindings_of_import {t : Tree} {typeOnly : Bool}
    (hKind : t.kind = .importDeclaration typeOnly) :
    t.moduleBindings = (t.importedNames.filter fun n => !n.record.isType).map fun n =>
      (n.localName, .setupConst) := by
  have hForm := declarationForm_eq_moduleImport_iff.mpr ⟨typeOnly, hKind⟩
  cases typeOnly with
  | true =>
      have hNone : (t.importedNames.filter fun n => !n.record.isType) = [] := by
        rw [List.filter_eq_nil_iff]
        intro n hMem
        obtain ⟨typeOnly, hKind', d, -, hRecord⟩ := exists_hasRecord_of_mem hMem
        obtain rfl := Kind.importDeclaration.inj (hKind.symm.trans hKind')
        simp [hRecord.isType_of_typeOnly]
      simp only [moduleBindings, hForm]
      rw [if_pos hKind, hNone, List.map_nil]
  | false =>
      simp only [moduleBindings, hForm, importedNames, hKind]
      rw [if_neg (by simp), filterMap_runtimeName? t.moduleName, List.map_map]
      rfl

end Tree

end ComponentAnalysis
