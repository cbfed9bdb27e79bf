import ComponentAnalysis.Proofs.Component.Classification
import ComponentAnalysis.Proofs.Component.Registration
import ComponentAnalysis.Proofs.Macro.Initializer
import ComponentAnalysis.Proofs.Tree.Body

/-! Which variables the props of a component come from. Calls declare props anywhere in a function,
in nested blocks and functions too; bindings are read from the top of its body only, and a later
declaration of a name replaces an earlier one. -/
namespace ComponentAnalysis

variable {Ast : Type}

/-- In a script that is parsed, so are the functions of components. -/
theorem ScriptParsed.parsed_function {program : List Tree} (h : ScriptParsed program)
    {declaration : ComponentDeclaration} {f : Tree} (hMem : declaration ∈ componentsOf program)
    (hFunction : declaration.function = some f) : f.Parsed := by
  have hStatement := List.mem_of_getElem? (getElem?_of_mem_componentsOf hMem)
  rw [function_eq_of_mem_componentsOf hMem] at hFunction
  have hParsed : declaration.statement.Parsed :=
    ⟨⟨h.each _ hStatement, h.walk _ hStatement⟩, h.calls _ hStatement⟩
  exact hParsed.of_mem (Tree.functionInfo_mem_preorder hFunction)

namespace Tree

/-- A variable of a plain name holds a prop: a call of the `vineProp` family initializes it. -/
structure HoldsProp (d : Tree) (name : String) (call : Tree) (callee : MacroName) : Prop where
  name : d.declaratorName? = some name
  initializer : d.IsInitializedBy call
  called : call.macroName? = some callee
  base : callee.base = .prop

/-- The call of a prop is below the function of its variable. -/
theorem HoldsProp.mem_calls {f d call : Tree} {name : String} {callee : MacroName}
    (h : d.HoldsProp name call callee) (hd : d ∈ f.preorder) : call ∈ f.calls :=
  Tree.mem_calls.mpr
    ⟨mem_preorder_trans h.initializer.mem_preorder hd, kind_of_macroName? h.called⟩

/-- The prop that a call in a function declares, if it is of the family and initializes a
variable. -/
def propOf? (f : Tree) (source : String) (call : Tree) : Option (String × PropMeta) :=
  (call.macroName?.filter fun callee => callee.base = .prop).bind fun callee =>
    (f.bindingOfCall? call.span).map fun name =>
      (name, (MacroSite.ofCall f call callee).propMeta source)

/-- The props of a function are read off the calls below it, in order. -/
theorem macroProps_macroSites (f : Tree) (source : String) :
    macroProps f.macroSites source = f.calls.filterMap (f.propOf? source) := by
  rw [macroProps, sitesOf, macroSites, calls, List.filter_filterMap, List.filterMap_filterMap,
    List.filterMap_filter]
  apply List.filterMap_congr
  intro n _
  cases hCallee : n.macroName? with
  | none => simp [propOf?, hCallee]
  | some callee =>
      rw [if_pos (decide_eq_true (kind_of_macroName? hCallee))]
      by_cases hBase : callee.base = .prop <;>
        simp [propOf?, hCallee, hBase, MacroSite.ofCall, Option.filter]

section

variable {f : Tree} {source name : String} {prop : PropMeta} (hParsed : f.Parsed)

include hParsed

/-- A call gives the prop of the variable that it initializes. -/
theorem propOf?_eq_some_iff {call : Tree} (hCall : call ∈ f.calls) :
    f.propOf? source call = some (name, prop) ↔
      ∃ d ∈ f.preorder, ∃ callee, d.HoldsProp name call callee ∧
        prop = (MacroSite.ofCall f call callee).propMeta source := by
  simp only [propOf?, Option.bind_eq_some_iff, Option.filter_eq_some_iff, Option.map_eq_some_iff,
    bindingOfCall?_eq_some_iff hParsed.callsApart hCall, Prod.mk.injEq, decide_eq_true_iff]
  constructor
  · rintro ⟨callee, ⟨hCalled, hBase⟩, _, ⟨d, hd, hName, hInit⟩, rfl, rfl⟩
    exact ⟨d, hd, callee, ⟨hName, hInit, hCalled, hBase⟩, rfl⟩
  · rintro ⟨d, hd, callee, ⟨hName, hInit, hCalled, hBase⟩, rfl⟩
    exact ⟨callee, ⟨hCalled, hBase⟩, name, ⟨d, hd, hName, hInit⟩, rfl, rfl⟩

/-- The props of a function's calls are those of its variables that hold one. -/
theorem mem_macroProps_iff :
    (name, prop) ∈ macroProps f.macroSites source ↔
      ∃ d ∈ f.preorder, ∃ call callee, d.HoldsProp name call callee ∧
        prop = (MacroSite.ofCall f call callee).propMeta source := by
  rw [macroProps_macroSites, List.mem_filterMap]
  constructor
  · rintro ⟨call, hCall, hProp⟩
    obtain ⟨d, hd, callee, hHolds⟩ := (propOf?_eq_some_iff hParsed hCall).mp hProp
    exact ⟨d, hd, call, callee, hHolds⟩
  · rintro ⟨d, hd, call, callee, hHolds, hProp⟩
    have hCall := hHolds.mem_calls hd
    exact ⟨call, hCall, (propOf?_eq_some_iff hParsed hCall).mpr ⟨d, hd, callee, hHolds, hProp⟩⟩

/-- In a function whose calls are sound each call of the family initializes a variable of a plain
name. -/
theorem exists_holdsProp {call : Tree} {callee : MacroName}
    (hSound : ∀ site ∈ f.macroSites, siteFaults site = []) (hMem : call ∈ f.preorder)
    (hCalled : call.macroName? = some callee) (hBase : callee.base = .prop) :
    ∃ d ∈ f.preorder, ∃ name, d.HoldsProp name call callee := by
  obtain ⟨name, hName⟩ :=
    binding_of_siteFaults_nil (hSound _ (mem_macroSites hMem hCalled)) hBase
  have hCall : call ∈ f.calls := mem_calls.mpr ⟨hMem, kind_of_macroName? hCalled⟩
  obtain ⟨d, hd, hName, hInit⟩ := (bindingOfCall?_eq_some_iff hParsed.callsApart hCall).mp hName
  exact ⟨d, hd, name, hName, hInit, hCalled, hBase⟩

/-- A variable that a sound call of the family initializes has a plain name. -/
theorem exists_name_of_isInitializedBy {d call : Tree} {callee : MacroName}
    (hSound : ∀ site ∈ f.macroSites, siteFaults site = []) (hd : d ∈ f.preorder)
    (hInit : d.IsInitializedBy call) (hCalled : call.macroName? = some callee)
    (hBase : callee.base = .prop) : ∃ name, d.HoldsProp name call callee := by
  obtain ⟨d', hd', name, hHolds⟩ := exists_holdsProp hParsed hSound
    (mem_preorder_trans hInit.mem_preorder hd) hCalled hBase
  obtain rfl :=
    hInit.unique hParsed.callsApart (kind_of_macroName? hCalled) hd hd' hHolds.initializer
  exact ⟨name, hHolds⟩

end

/-- Props of calls are marked as such. -/
theorem isFromMacro_of_mem_macroProps {sites : List MacroSite} {source : String}
    {prop : String × PropMeta} (h : prop ∈ macroProps sites source) :
    prop.2.isFromMacro = true := by
  obtain ⟨site, -, hProp⟩ := List.mem_filterMap.mp h
  obtain ⟨name, -, rfl⟩ := Option.map_eq_some_iff.mp hProp
  unfold MacroSite.propMeta
  split <;> rfl

end Tree

/-- Only the body of a component binds names as refs, each by the last declaration of it. -/
theorem BindingScope.template_setupRef_iff {program : List Tree} {apis : Reactivity}
    {declaration : ComponentDeclaration} {f : Tree} {propsAlias : Option String} {name : String} :
    template program apis declaration f propsAlias name .setupRef ↔
      ∃ t d, IsLast (fun e => Tree.Declares name e.1 e.2)
        (nodesOf Tree.declarationNodes f.bodyStatements) (t, d) ∧ d.HoldsRef apis := by
  have hKind : ∀ d : Tree, d.BodyKind apis .setupRef ↔ d.HoldsRef apis := by
    intro d
    constructor
    · intro h
      cases h with
      | ref hRef => exact hRef
    · exact Tree.BodyKind.ref
  have hOuter : ¬ ((props propsAlias).within ((self declaration).within
      (module program declaration))) name .setupRef := by
    rintro (⟨-, hProps⟩ | ⟨-, ⟨-, -, hSelf⟩ | ⟨-, t, d, -, hModule⟩⟩)
    · cases hProps
    · cases hSelf
    · cases hModule
  rw [template, within, or_iff_left fun h => hOuter h.2]
  exact exists₂_congr fun t d => and_congr_right fun _ => hKind d

/-- The props of a component without a parameter, and how they are bound. -/
structure BindsProps (source : String) (apis : Reactivity) (f : Tree)
    (component : Component Ast) : Prop where
  /-- The props are those of the variables, anywhere in the function, that hold one. -/
  mem_props_iff : ∀ name prop, (name, prop) ∈ component.props ↔
    ∃ d ∈ f.preorder, ∃ call callee, d.HoldsProp name call callee ∧
      prop = (MacroSite.ofCall f call callee).propMeta source
  isFromMacro : ∀ prop ∈ component.props, prop.2.isFromMacro = true
  /-- A prop is bound as a ref exactly if the last declaration of its name at the top of the body is
  a variable that holds one. -/
  setupRef_iff : ∀ prop ∈ component.props, component.bindings.find? prop.1 = some .setupRef ↔
    ∃ t d, IsLast (fun e => Tree.Declares prop.1 e.1 e.2)
      (nodesOf Tree.declarationNodes f.bodyStatements) (t, d) ∧ d.HoldsRef apis
  /-- A variable at the top of the body that a call of the family initializes gives a prop. -/
  ofBody : ∀ t ∈ f.bodyStatements, ∀ d ∈ t.declarators, ∀ call callee, d.IsInitializedBy call →
    call.macroName? = some callee → callee.base = .prop →
      ∃ name, d.declaratorName? = some name ∧
        (name, (MacroSite.ofCall f call callee).propMeta source) ∈ component.props

namespace AnalysisInput

variable {input : AnalysisInput Ast} {fileId : String} {declaration : ComponentDeclaration}
  {f : Tree}

/-- The component of a declaration whose calls are sound binds the props of its calls. -/
theorem exists_bindsProps (hParsed : ScriptParsed input.program)
    (hMem : declaration ∈ componentsOf input.program) (hFunction : declaration.function = some f)
    (hSound : ∀ site ∈ declaration.sites, siteFaults site = []) :
    ∃ c, input.componentOf? fileId declaration = some c ∧
      (f.parameters = [] → BindsProps input.source input.imports.reactivity f c) := by
  obtain ⟨c, hComponent, hProps, hBindings⟩ := exists_componentOf? hFunction
  refine ⟨c, hComponent, fun hNone => ?_⟩
  have hParsedF := hParsed.parsed_function hMem hFunction
  have hFormal : formalProps f input.source = .ok none := by rw [formalProps, hNone]
  rw [sites_of_mem_componentsOf hMem hFunction] at hSound
  have hProps : c.props = macroProps f.macroSites input.source := by
    rw [hProps, ← sites_of_mem_componentsOf hMem hFunction]
    simp only [AnalysisInput.component, hFormal]
    rfl
  constructor
  case mem_props_iff =>
    intro name prop
    rw [hProps]
    exact Tree.mem_macroProps_iff hParsedF
  case isFromMacro =>
    rw [hProps]
    exact fun prop h => Tree.isFromMacro_of_mem_macroProps h
  case setupRef_iff =>
    intro prop _
    rw [hBindings, ← BindingScope.template_setupRef_iff, ← BindingScope.find?_bindings_iff]
    rfl
  case ofBody =>
    intro t ht d hd call callee hInit hCalled hBase
    have hIn : d ∈ f.preorder := Tree.mem_preorder_of_bodyStatements ht
      (Tree.mem_preorder_of_mem_children (Tree.mem_children_of_mem_declarators hd))
    obtain ⟨name, hHolds⟩ :=
      Tree.exists_name_of_isInitializedBy hParsedF hSound hIn hInit hCalled hBase
    refine ⟨name, hHolds.name, ?_⟩
    rw [hProps, Tree.mem_macroProps_iff hParsedF]
    exact ⟨d, hIn, call, callee, hHolds, rfl⟩

variable (input) in
/-- A component without a parameter binds the props of its calls. -/
def BindsCalls (declaration : ComponentDeclaration) (component : Component Ast) : Prop :=
  ∃ f, declaration.function = some f ∧
    (f.parameters = [] → BindsProps input.source input.imports.reactivity f component)

/-- When a file passes validation, the props of each component without a parameter are the variables
that hold one, and those at the top of its body are bound as refs if nothing behind them has their
name. -/
theorem analyze_bindsCalls (hParsed : ScriptParsed input.program) (file : FileAnalysis Ast)
    (diagnostics : List Diagnostic)
    (hPassed : (validate input.program (componentsOf input.program) input.imports.reactivity
      ⟨file.fileId, input.source, diagnostics⟩).1.passed = true) :
    ∃ added, (input.analyze file (componentsOf input.program)).components =
        file.components ++ added ∧
      List.Forall₂ input.BindsCalls (componentsOf input.program) added := by
  obtain ⟨-, hNoError⟩ := passed_iff.mp hPassed
  apply input.exists_forall₂_analyze
  intro declaration hMem
  obtain ⟨f, hFunction⟩ := exists_function_of_no_error (hNoError declaration hMem)
  obtain ⟨c, hComponent, hBinds⟩ := exists_bindsProps hParsed hMem hFunction
    fun site hSite => siteFaults_eq_nil_of_no_error (hNoError declaration hMem) hSite
  exact ⟨c, hComponent, f, hFunction, hBinds⟩

end AnalysisInput

/-- A component with one prop at the top of its body. -/
theorem analyze_bindsCalls_card :
    ∃ added, (cardInput.analyze cardFile (componentsOf [cardStatement])).components = added ∧
      List.Forall₂ cardInput.BindsCalls (componentsOf [cardStatement]) added :=
  AnalysisInput.analyze_bindsCalls (by decide +kernel) cardFile []
    (passed_iff.mpr ⟨by decide +kernel, by decide +kernel⟩)

/-- A component with a prop inside an `if`. -/
def nestedStatement : Tree :=
  .node (.function .declaration) ⟨0, 78⟩
    [.node (.binding "A") ⟨9, 10⟩ [],
      .node .parameters ⟨10, 12⟩ [],
      .node .functionBody ⟨13, 78⟩
        [.node .ifStatement ⟨17, 56⟩
          [.node (.reference "x") ⟨21, 22⟩ [],
            .node .block ⟨24, 56⟩
              [.node (.variableStatement .const) ⟨26, 54⟩
                [.node (.declarator .const) ⟨32, 54⟩
                  [.node (.binding "p") ⟨32, 33⟩ [],
                    .node .call ⟨36, 54⟩
                      [.node (.reference "vineProp") ⟨36, 44⟩ [],
                        .node .typeArguments ⟨44, 52⟩ [.node .otherType ⟨45, 51⟩ []]]]]]],
          .node .returnStatement ⟨59, 76⟩
            [.node .taggedTemplate ⟨66, 76⟩
              [.node (.reference "vine") ⟨66, 70⟩ [],
                .node .template ⟨70, 76⟩
                  [.node (.templateText (some "<a/>")) ⟨71, 75⟩ []]]]]]

def nestedInput : AnalysisInput Unit where
  source := "function A() \x7b\n  if (x) \x7b const p = vineProp<string>() \x7d\n" ++
    "  return vine`<a/>`\n\x7d\n"
  program := [nestedStatement]
  imports := {}
  templates := .silent Unit
  options := {}

def nestedFile : FileAnalysis Unit where
  fileId := "nested"
  source := nestedInput.source

/-- A file passes validation although the body of its component does not declare its prop at the
top, and no binding of the component has the name. -/
theorem not_bound_nested :
    ScriptParsed [nestedStatement] ∧
      (validate [nestedStatement] (componentsOf [nestedStatement]) {}
        ⟨"nested", nestedInput.source, []⟩).1.passed = true ∧
      ∃ f component, (componentsOf [nestedStatement]).map ComponentDeclaration.function = [some f] ∧
        f.parameters = [] ∧
        (nestedInput.analyze nestedFile (componentsOf [nestedStatement])).components =
          [component] ∧
        component.props.map Prod.fst = ["p"] ∧ (∀ t ∈ f.bodyStatements, ∀ d, ¬ t.Declares "p" d) ∧
        component.bindings.find? "p" = none := by
  refine ⟨by decide +kernel, passed_iff.mpr ⟨by decide +kernel, by decide +kernel⟩, _, _, rfl, rfl,
    rfl, by decide +kernel, ?_, by decide +kernel⟩
  intro t ht d hDeclares
  have hNone : ∀ t ∈ (nestedStatement.functionInfo.1.getD nestedStatement).bodyStatements,
      "p" ∉ t.declaredNames := by decide +kernel
  exact hNone t ht (Tree.mem_declaredNames.mpr ⟨d, hDeclares⟩)

end ComponentAnalysis
