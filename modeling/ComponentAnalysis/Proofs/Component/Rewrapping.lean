import ComponentAnalysis.Proofs.Imports.Specifiers
import ComponentAnalysis.Proofs.Macro.Resolution
import ComponentAnalysis.Proofs.Macro.Rewrapping

/-! The bindings of a script that is written anew with other wrappers around its values. -/
namespace ComponentAnalysis

namespace Rewrapping

variable (r : Rewrapping)

/-- The specifiers of imports hold no values, so nothing is rewrapped in them. -/
theorem specifierName?_apply (source : String) (typeOnly : Bool) (t : Tree) :
    Tree.specifierName? source typeOnly (r.apply t) = Tree.specifierName? source typeOnly t := by
  obtain ⟨kind, span, children⟩ := t
  cases kind with
  | importDefault | importNamespace =>
      rcases children with _ | ⟨⟨kind, _, _⟩, _ | ⟨_, _⟩⟩
      · rfl
      · cases kind <;> rfl
      · cases kind <;> rfl
  | importNamed =>
      rcases children with _ | ⟨⟨kind, _, _⟩, _ | ⟨⟨kind', _, _⟩, _ | ⟨_, _⟩⟩⟩
      · rfl
      · cases kind <;> rfl
      · cases kind with
        | name | string => cases kind' <;> rfl
        | _ => rfl
      · cases kind with
        | name | string => cases kind' <;> rfl
        | _ => rfl
  | _ => rfl

theorem moduleName_apply {t : Tree} (h : (r.apply t).children = t.children.map r.apply) :
    (r.apply t).moduleName = t.moduleName := by
  simp only [Tree.moduleName, h, List.findSome?_map, Function.comp_def, kind_apply]

/-- A declaration keeps its name at run time. -/
theorem runtimeName?_apply (t : Tree) : (r.apply t).runtimeName? = t.runtimeName? := by
  rw [Tree.runtimeName?_eq "", specifierName?_apply, ← Tree.runtimeName?_eq]

/-- An import is written anew part by part. -/
theorem children_apply_of_import {t : Tree} {typeOnly : Bool}
    (hKind : t.kind = .importDeclaration typeOnly) :
    (r.apply t).children = t.children.map r.apply := by
  rw [children_apply, hKind]
  rfl

/-- It imports the same names. -/
theorem importedNames_apply (t : Tree) : (r.apply t).importedNames = t.importedNames := by
  rw [Tree.importedNames, kind_apply, Tree.importedNames]
  split
  · rename_i typeOnly hKind
    have hChildren := r.children_apply_of_import hKind
    rw [moduleName_apply r hChildren, hChildren, List.filterMap_map]
    exact congrArg (List.filterMap · t.children)
      (funext (r.specifierName?_apply t.moduleName typeOnly))
  · rfl

/-- A script imports the same as before. -/
theorem ofProgram_map (program : List Tree) :
    Imports.ofProgram (program.map r.apply) = Imports.ofProgram program := by
  rw [Imports.ofProgram, List.flatMap_map, Imports.ofProgram]
  simp only [importedNames_apply]

/-- A variable of a module is bound as before. -/
theorem moduleDeclaratorBindings_apply (d : Tree) :
    (r.apply d).moduleDeclaratorBindings = d.moduleDeclaratorBindings := by
  simp only [Tree.moduleDeclaratorBindings, declaratorName?_apply, isConstDeclarator_apply,
    any_isStatic_declaratorValue?_apply, declaratorPattern?_apply]
  cases d.declaratorPattern? with
  | none => rfl
  | some pattern => rw [Option.map_some, Option.elim_some, Option.elim_some, patternNames_apply]

/-- A declaration other than an import declares the same name, exported or not. -/
theorem declaredName?_declared_apply {t : Tree} (hImport : t.declarationForm ≠ .moduleImport)
    (hOther : t.declarationForm ≠ .other) :
    (r.apply t.declared).declaredName? = t.declared.declaredName? := by
  have hForm : t.declarationForm = .moduleImport ∨
      t.declarationForm = t.declared.exportableForm := by
    unfold Tree.declarationForm
    split
    · exact Or.inl rfl
    · exact Or.inr rfl
  rw [hForm.resolve_left hImport] at hOther
  exact r.declaredName?_apply hOther

/-- A statement binds the same names in its module. -/
theorem moduleBindings_apply (t : Tree) : (r.apply t).moduleBindings = t.moduleBindings := by
  simp only [Tree.moduleBindings, declarationForm_apply, declared_apply]
  split
  · rename_i hForm
    obtain ⟨typeOnly, hKind⟩ := Tree.declarationForm_eq_moduleImport_iff.mp hForm
    simp only [kind_apply, r.children_apply_of_import hKind, List.filterMap_map, Function.comp_def,
      runtimeName?_apply]
  · rw [r.declaredName?_declared_apply (by simp [*]) (by simp [*])]
  · rw [r.declaredName?_declared_apply (by simp [*]) (by simp [*])]
  · rw [r.declaredName?_declared_apply (by simp [*]) (by simp [*])]
  · simp only [declarators_apply, List.flatMap_map, moduleDeclaratorBindings_apply]
  · rfl
  · rfl

/-- How a value binds its variable is read through wrappers. -/
theorem initializerKind_apply (apis : Reactivity) (value : Tree) :
    Tree.initializerKind apis (r.apply value) = Tree.initializerKind apis value := by
  simp only [Tree.initializerKind, macroName?_apply, calleeName?_apply]

/-- A variable in the body of a component is bound as before. -/
theorem bodyDeclaratorBindings_apply (apis : Reactivity) (d : Tree) :
    (r.apply d).bodyDeclaratorBindings apis = d.bodyDeclaratorBindings apis := by
  simp only [Tree.bodyDeclaratorBindings, declaratorName?_apply, isConstDeclarator_apply,
    map_unwrap_declaratorValue?_apply, declaratorPattern?_apply]
  cases d.declaratorName? with
  | none =>
      cases d.declaratorPattern? with
      | none => rfl
      | some pattern => simp only [Option.map_some, Option.elim_some, patternNames_apply]
  | some name =>
      cases d.declaratorValue?.map Tree.unwrap with
      | none => rfl
      | some value =>
          rw [Option.map_some, Option.elim_some, Option.elim_some, Option.any_some,
            Option.any_some, initializerKind_apply, isMacroCall_apply, isNeverRef_apply]

/-- So are all names of a statement in the body. -/
theorem bodyBindings_apply (apis : Reactivity) (t : Tree) :
    (r.apply t).bodyBindings apis = t.bodyBindings apis := by
  simp only [Tree.bodyBindings, exportableForm_apply]
  split
  · simp only [declarators_apply, List.flatMap_map, bodyDeclaratorBindings_apply]
  · rw [r.declaredName?_apply (by simp [*])]
  · rw [r.declaredName?_apply (by simp [*])]
  · rw [r.declaredName?_apply (by simp [*])]
  · rfl

/-- So are all names of the body, in the same order. -/
theorem bodyDeclarations_apply (apis : Reactivity) {f : Tree} (h : f.isFunction = true) :
    bodyDeclarations apis (r.apply f) = bodyDeclarations apis f := by
  rw [bodyDeclarations, r.bodyStatements_apply h, bodyDeclarations, List.zipIdx_map,
    List.flatMap_map]
  simp only [Prod.map, bodyBindings_apply, id]

/-- The names around a component are those before. -/
theorem surroundingBindings_map (program : List Tree) (position : Nat) (statement : Tree)
    (propsAlias : Option String) :
    surroundingBindings (program.map r.apply) (.ofStatement position (r.apply statement))
        propsAlias =
      surroundingBindings program (.ofStatement position statement) propsAlias := by
  have hName : (ComponentDeclaration.ofStatement position (r.apply statement)).name =
      (ComponentDeclaration.ofStatement position statement).name := by
    simp only [ComponentDeclaration.ofStatement, functionInfo_apply]
  rw [surroundingBindings, hName, List.zipIdx_map, List.flatMap_map, surroundingBindings]
  simp only [Prod.map, moduleBindings_apply, id]
  rfl

/-- A component binds the same names in the same way. -/
theorem classifyBindings_map (program : List Tree) (apis : Reactivity) (position : Nat)
    (statement : Tree) {f : Tree} (h : f.isFunction = true) (propsAlias : Option String) :
    classifyBindings (program.map r.apply) apis (.ofStatement position (r.apply statement))
        (r.apply f) propsAlias =
      classifyBindings program apis (.ofStatement position statement) f propsAlias := by
  rw [classifyBindings, surroundingBindings_map, r.bodyDeclarations_apply apis h]
  rfl

/-- A script that is written anew declares the same functions under the same names, binds the same
names in the same way in its module and in its components, and has the same macro calls, bound to
the same names and with arguments of the same shapes. Bindings are looked up by the places of calls,
so these have to differ, as they do in a parsed script (`Tree.Parsed.callsApart`). -/
structure KeepsAnalysis (program : List Tree) : Prop where
  functions : ∀ t ∈ program,
    (r.apply t).functionInfo = (t.functionInfo.1.map r.apply, t.functionInfo.2)
  moduleBindings : ∀ t ∈ program, (r.apply t).moduleBindings = t.moduleBindings
  bindings : ∀ t ∈ program, ∀ f, t.functionInfo.1 = some f → ∀ position propsAlias,
    classifyBindings (program.map r.apply) (Imports.ofProgram (program.map r.apply)).reactivity
        (.ofStatement position (r.apply t)) (r.apply f) propsAlias =
      classifyBindings program (Imports.ofProgram program).reactivity (.ofStatement position t) f
        propsAlias
  sites : ∀ t ∈ program, ∀ f, t.functionInfo.1 = some f → (r.apply f).CallsApart →
    List.SublistForall₂ (MacroSite.Moved r.moved) f.macroSites (r.apply f).macroSites

/-- Writing a script anew keeps its analysis, whatever it is. -/
theorem keepsAnalysis (program : List Tree) : r.KeepsAnalysis program where
  functions t _ := r.functionInfo_apply t
  moduleBindings t _ := r.moduleBindings_apply t
  bindings t _ f hf position propsAlias := by
    rw [ofProgram_map]
    exact r.classifyBindings_map program _ position t (Tree.functionInfo_isFunction hf) propsAlias
  sites _ _ _ _ hApart := sublistForall₂_macroSites hApart

end Rewrapping

/-- Parentheses and type wrappers make no difference: neither to the expression in them and to
whether it is static, nor to the analysis of a script that is written with them around its
values. -/
theorem wrappers_transparent :
    (∀ layers e, (Tree.wrap layers e).unwrap = e.unwrap ∧
      (Tree.wrap layers e).isStatic = e.isStatic) ∧
      ∀ (r : Rewrapping) (program : List Tree), r.KeepsAnalysis program :=
  ⟨fun layers e => ⟨e.unwrap_wrap layers, e.isStatic_wrap layers⟩, Rewrapping.keepsAnalysis⟩

/-- Writes `vineProp(vineProp.optional()!)!` and `(vineEmits() as T)` in `Tree.nestedMacros`. -/
def Rewrapping.ofNestedMacros : Rewrapping where
  moved s := (s.behindInsertion ⟨32, 51⟩ 0 1).behindInsertion ⟨64, 75⟩ 1 6
  initializer s :=
    if s = ⟨65, 76⟩ then
      [.parentheses ⟨64, 82⟩, .asType ⟨65, 81⟩ (.node .otherType ⟨80, 81⟩ [])]
    else []
  argument s := if s = ⟨32, 51⟩ then [.nonNull ⟨32, 52⟩] else []
  returned _ := []

/-- Wrappers around both calls change their places but not their bindings. -/
theorem wrappers_transparent_nested :
    Rewrapping.ofNestedMacros.KeepsAnalysis [Tree.nestedMacros] ∧
      (Rewrapping.ofNestedMacros.apply Tree.nestedMacros).CallsApart ∧
      (Rewrapping.ofNestedMacros.apply Tree.nestedMacros).macroSites.map
          (fun site => (site.span.start, site.binding)) =
        [(23, some "a"), (32, none), (65, none)] :=
  ⟨wrappers_transparent.2 Rewrapping.ofNestedMacros [Tree.nestedMacros], by decide, by decide⟩

end ComponentAnalysis
