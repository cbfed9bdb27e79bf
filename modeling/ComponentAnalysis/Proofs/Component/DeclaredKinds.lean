import ComponentAnalysis.Proofs.Imports.Specifiers

/-! How the node that declares a name binds it. In a body the initializer decides, in the module
whether the value is known beforehand. -/
namespace ComponentAnalysis

namespace Tree

/-- A variable of a plain name holds a ref: a prop, or what a constructor of refs gives. -/
def HoldsRef (apis : Reactivity) (d : Tree) : Prop :=
  ∃ name value, d.declaratorName? = some name ∧ d.declaratorValue? = some value ∧
    ((∃ call, value.unwrap.macroName? = some call ∧ call.base = .prop) ∨
      ∃ callee, value.unwrap.calleeName? = some callee ∧ apis.callee? callee = some .ref)

/-- A variable of a plain name holds what a constructor of reactive objects gives. -/
def HoldsReactive (apis : Reactivity) (d : Tree) : Prop :=
  ∃ name value callee, d.declaratorName? = some name ∧ d.declaratorValue? = some value ∧
    value.unwrap.calleeName? = some callee ∧ apis.callee? callee = some .reactive

/-- A declaration of the module whose value is known beforehand: a function, a class, an enum, or a
constant of a plain name with a static initializer. -/
def IsModuleLiteral (d : Tree) : Prop :=
  (d.kind = .function .declaration ∨ d.kind = .classDefinition ∨ d.kind = .enumDeclaration) ∨
    ∃ name value, d.declaratorName? = some name ∧ d.isConstDeclarator = true ∧
      d.declaratorValue? = some value ∧ value.isStatic = true

/-- How a declaration at the top of a body binds its names. -/
inductive BodyKind (apis : Reactivity) (d : Tree) : BindingKind → Prop where
  | ref (hRef : d.HoldsRef apis) : BodyKind apis d .setupRef
  | reactive (hRef : ¬ d.HoldsRef apis) (hReactive : d.HoldsReactive apis) :
      BodyKind apis d .setupReactiveConst
  | other (hRef : ¬ d.HoldsRef apis) (hReactive : ¬ d.HoldsReactive apis) :
      BodyKind apis d .setupConst

/-- How a declaration of the module binds its names. -/
inductive ModuleKind (d : Tree) : BindingKind → Prop where
  | literal (h : d.IsModuleLiteral) : ModuleKind d .literalConst
  | other (h : ¬ d.IsModuleLiteral) : ModuleKind d .setupConst

/-- The kind that the analysis gives to the names of a node in a body. -/
def kindInBody (apis : Reactivity) (d : Tree) : BindingKind :=
  match d.declaratorName? with
  | some _ => (d.declaratorValue?.map unwrap).elim .setupConst (initializerKind apis)
  | none => .setupConst

/-- The kind that the analysis gives to the names of a node of the module. -/
def kindInModule (d : Tree) : BindingKind :=
  match d.kind with
  | .function .declaration | .classDefinition | .enumDeclaration => .literalConst
  | _ =>
    if d.declaratorName?.isSome && d.isConstDeclarator && d.declaratorValue?.any isStatic then
      .literalConst
    else .setupConst

/-- The initializer of a variable decides what it holds. -/
theorem bodyKind_initializerKind {apis : Reactivity} {d value : Tree} {name : String}
    (hName : d.declaratorName? = some name) (hValue : d.declaratorValue? = some value) :
    d.BodyKind apis (initializerKind apis value.unwrap) := by
  have hRef : d.HoldsRef apis ↔ (∃ call, value.unwrap.macroName? = some call ∧ call.base = .prop) ∨
      (value.unwrap.calleeName?.bind apis.callee?) = some .ref := by
    simp [HoldsRef, hName, hValue, Option.bind_eq_some_iff]
  have hReactive : d.HoldsReactive apis ↔
      (value.unwrap.calleeName?.bind apis.callee?) = some .reactive := by
    simp [HoldsReactive, hName, hValue, Option.bind_eq_some_iff]
  unfold initializerKind
  split
  · rename_i hProp
    obtain ⟨call, hCall, hBase⟩ := (Option.any_eq_true _ _).mp hProp
    exact BodyKind.ref (hRef.mpr (Or.inl ⟨call, hCall, of_decide_eq_true hBase⟩))
  · rename_i hProp
    have hNoProp : ¬ ∃ call, value.unwrap.macroName? = some call ∧ call.base = .prop := by
      rintro ⟨call, hCall, hBase⟩
      exact hProp ((Option.any_eq_true _ _).mpr ⟨call, hCall, decide_eq_true hBase⟩)
    cases hCallee : value.unwrap.calleeName?.bind apis.callee? with
    | none => exact BodyKind.other (by simp [hRef, hNoProp, hCallee]) (by simp [hReactive, hCallee])
    | some api =>
        cases api with
        | ref => exact BodyKind.ref (hRef.mpr (Or.inr hCallee))
        | reactive =>
            exact BodyKind.reactive (by simp [hRef, hNoProp, hCallee]) (hReactive.mpr hCallee)

/-- The kind that the analysis gives is the one that the node has by its initializer. -/
theorem bodyKind_kindInBody (apis : Reactivity) (d : Tree) :
    d.BodyKind apis (d.kindInBody apis) := by
  cases hName : d.declaratorName? with
  | none =>
      simp only [kindInBody, hName]
      exact BodyKind.other (by simp [HoldsRef, hName]) (by simp [HoldsReactive, hName])
  | some name =>
      cases hValue : d.declaratorValue? with
      | none =>
          simp only [kindInBody, hName, hValue]
          exact BodyKind.other (by simp [HoldsRef, hValue]) (by simp [HoldsReactive, hValue])
      | some value =>
          simp only [kindInBody, hName, hValue]
          exact bodyKind_initializerKind hName hValue

/-- A node has one kind only in a body. -/
theorem BodyKind.unique {apis : Reactivity} {d : Tree} {kind kind' : BindingKind}
    (h : d.BodyKind apis kind) (h' : d.BodyKind apis kind') : kind = kind' := by
  cases h <;> cases h' <;> first | rfl | contradiction

/-- So the analysis can be asked for the kind. -/
theorem bodyKind_iff {apis : Reactivity} {d : Tree} {kind : BindingKind} :
    d.BodyKind apis kind ↔ d.kindInBody apis = kind := by
  constructor
  · exact (d.bodyKind_kindInBody apis).unique
  · rintro rfl
    exact d.bodyKind_kindInBody apis

theorem isModuleLiteral_iff {d : Tree} : d.IsModuleLiteral ↔ d.kindInModule = .literalConst := by
  unfold IsModuleLiteral kindInModule
  split
  · simp_all
  · simp_all
  · simp_all
  · cases hName : d.declaratorName? <;> cases hValue : d.declaratorValue? <;> simp_all

/-- The same of declarations of the module. -/
theorem moduleKind_iff {d : Tree} {kind : BindingKind} :
    d.ModuleKind kind ↔ d.kindInModule = kind := by
  have hCases : d.kindInModule = .literalConst ∨ d.kindInModule = .setupConst := by
    unfold kindInModule
    split <;> simp [or_comm]
  constructor
  · intro h
    cases h with
    | literal h => exact isModuleLiteral_iff.mp h
    | other h => exact hCases.resolve_left fun hLiteral => h (isModuleLiteral_iff.mpr hLiteral)
  · rintro rfl
    rcases hCases with hKind | hKind
    · rw [hKind]
      exact ModuleKind.literal (isModuleLiteral_iff.mpr hKind)
    · rw [hKind]
      refine ModuleKind.other fun h => ?_
      rw [isModuleLiteral_iff.mp h] at hKind
      cases hKind

/-- All names of a pattern are bound alike. -/
theorem entries_bodyDeclaratorBindings (apis : Reactivity) (d : Tree) :
    (d.bodyDeclaratorBindings apis).map (fun b => (b.name, b.kind)) =
      (d.declaratorPattern?.elim [] patternNames).map fun n => (n, d.kindInBody apis) := by
  cases hName : d.declaratorName? with
  | none =>
      simp only [bodyDeclaratorBindings, kindInBody, hName, List.map_map]
      rfl
  | some name =>
      simp only [bodyDeclaratorBindings, kindInBody, hName, patternNames_of_declaratorName? hName]
      rfl

theorem declaratorPattern?_eq_none {d : Tree} (h : ∀ kind, d.kind ≠ .declarator kind) :
    d.declaratorPattern? = none := by
  unfold declaratorPattern?
  split
  · exact absurd rfl (h _)
  · rfl

/-- The analysis of a body enters for each node of a statement its names with its kind. -/
theorem entries_bodyBindings (apis : Reactivity) (t : Tree) :
    (t.bodyBindings apis).map (fun b => (b.name, b.kind)) =
      t.declarationNodes.flatMap fun d => (t.namesAt d).map fun n => (n, d.kindInBody apis) := by
  have hNamed : (t.exportableForm = .function ∨ t.exportableForm = .classDefinition ∨
      t.exportableForm = .enumeration) → t.kindInBody apis = .setupConst := by
    intro hForm
    have hPattern : t.declaratorPattern? = none := by
      apply declaratorPattern?_eq_none
      intro kind hKind
      rcases t.kind_of_exportableForm.2 hForm with h | h | h <;> rw [hKind] at h <;> cases h
    rw [kindInBody, declaratorName?, hPattern]
    rfl
  cases hForm : t.exportableForm with
  | «variable» =>
      simp only [bodyBindings, declarationNodes, namesAt, hForm, List.map_flatMap]
      exact List.flatMap_congr fun d _ => d.entries_bodyDeclaratorBindings apis
  | function => simp [bodyBindings, declarationNodes, namesAt, hForm, hNamed]
  | classDefinition => simp [bodyBindings, declarationNodes, namesAt, hForm, hNamed]
  | enumeration => simp [bodyBindings, declarationNodes, namesAt, hForm, hNamed]
  | _ => simp [bodyBindings, declarationNodes, namesAt, hForm]

/-- In a module, too, all names of a pattern are bound alike. -/
theorem entries_moduleDeclaratorBindings (d : Tree) :
    d.moduleDeclaratorBindings =
      (d.declaratorPattern?.elim [] patternNames).map fun n => (n, d.kindInModule) := by
  cases hPattern : d.declaratorPattern? with
  | none => simp [moduleDeclaratorBindings, declaratorName?, hPattern]
  | some pattern =>
      have hKind : ∃ kind, d.kind = .declarator kind := by
        by_contra hNone
        rw [declaratorPattern?_eq_none (not_exists.mp hNone)] at hPattern
        cases hPattern
      obtain ⟨kind, hKind⟩ := hKind
      cases hName : d.declaratorName? with
      | none =>
          simp [moduleDeclaratorBindings, kindInModule, hKind, hName, hPattern]
      | some name =>
          have hNames := patternNames_of_declaratorName? hName
          rw [hPattern] at hNames
          simp [moduleDeclaratorBindings, kindInModule, hKind, hName, hNames]

/-- Imported names may change, so they are not literal. -/
theorem kindInModule_of_specifierName? {d : Tree} {source : String} {typeOnly : Bool}
    {n : ImportedName} (h : specifierName? source typeOnly d = some n) :
    d.kindInModule = .setupConst := by
  unfold specifierName? at h
  split at h <;> first | rfl | cases h

/-- Functions, classes and enums of a module are literal. -/
theorem kindInModule_of_named {d : Tree} (h : d.kind = .function .declaration ∨
    d.kind = .classDefinition ∨ d.kind = .enumDeclaration) : d.kindInModule = .literalConst :=
  isModuleLiteral_iff.mp (Or.inl h)

/-- The analysis of the module enters for each node of a statement its names with its kind. -/
theorem entries_moduleBindings (t : Tree) :
    t.moduleBindings =
      t.moduleNodes.flatMap fun d => (t.moduleNamesAt d).map fun n => (n, d.kindInModule) := by
  by_cases hImport : ∃ typeOnly, t.kind = .importDeclaration typeOnly
  · obtain ⟨typeOnly, hKind⟩ := hImport
    simp only [moduleBindings_of_import hKind, importedNames, moduleNodes, moduleNamesAt, hKind]
    induction t.children with
    | nil => rfl
    | cons d ds ih =>
        rw [List.flatMap_cons, ← ih]
        cases hName : specifierName? t.moduleName typeOnly d with
        | none => simp [hName]
        | some n =>
            cases hType : n.record.isType <;>
              simp [hName, hType, Option.filter, kindInModule_of_specifierName? hName]
  · have hOther : ∀ typeOnly, t.kind ≠ .importDeclaration typeOnly := not_exists.mp hImport
    have hForm : t.declarationForm = t.declared.exportableForm := by
      unfold declarationForm
      split
      · exact absurd ‹_› (hOther _)
      · rfl
    have hLiteral := fun h => kindInModule_of_named (t.declared.kind_of_exportableForm.2 h)
    simp only [moduleBindings, moduleNodes_of_not_import hOther,
      moduleNamesAt_of_not_import hOther, hForm]
    cases hDeclared : t.declared.exportableForm with
    | «variable» =>
        simp only [declarationNodes, namesAt, hDeclared]
        exact List.flatMap_congr fun d _ => d.entries_moduleDeclaratorBindings
    | function => simp [declarationNodes, namesAt, hDeclared, hLiteral]
    | classDefinition => simp [declarationNodes, namesAt, hDeclared, hLiteral]
    | enumeration => simp [declarationNodes, namesAt, hDeclared, hLiteral]
    | moduleImport =>
        unfold exportableForm at hDeclared
        split at hDeclared <;> cases hDeclared
    | typeOnly => simp [declarationNodes, namesAt, hDeclared]
    | other => simp [declarationNodes, namesAt, hDeclared]

end Tree

end ComponentAnalysis
