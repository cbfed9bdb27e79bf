import ComponentAnalysis.Proofs.Component.Completeness
import ComponentAnalysis.Proofs.Component.Surroundings
import ComponentAnalysis.Proofs.Tree.WalkOrder
import ComponentAnalysis.Proofs.Validation.Accepted

/-! Which macro calls a file that passes validation may hold. Statements without a component hold
none, and the calls in the function of a component are its call sites. Between them stand the parts
of a component's statement beside the function, and no check looks there. -/
namespace ComponentAnalysis

namespace Tree

/-- A tree without macro calls has none among its nodes. -/
theorem macroCalls_eq_nil {t : Tree} :
    t.macroCalls = [] ↔ ∀ n ∈ t.preorder, n.isMacroCall = false := by
  rw [List.eq_nil_iff_forall_not_mem]
  constructor
  · intro h n hn
    by_contra hCall
    exact h n.span (mem_macroCalls.mpr ⟨n, hn, by simpa using hCall, rfl⟩)
  · intro h span hSpan
    obtain ⟨n, hn, hCall, -⟩ := mem_macroCalls.mp hSpan
    rw [h n hn] at hCall
    cases hCall

theorem kind_of_isMacroCall {t : Tree} (h : t.isMacroCall = true) : t.kind = .call := by
  obtain ⟨name, hName⟩ := Option.isSome_iff_exists.mp h
  exact kind_of_macroName? hName

end Tree

/-- No macro call escapes: every one lies in the function of exactly one component and is one of the
call sites of that component. Then all calls in the statement of a component are its call sites, and
other statements hold no calls. -/
structure MacroCallsCovered (program : List Tree) : Prop where
  owner : ∀ call ∈ program.flatMap Tree.preorder, ∀ name, call.macroName? = some name →
    ∃! c, c ∈ componentsOf program ∧ ∃ f, c.function = some f ∧ call ∈ f.preorder ∧
      MacroSite.ofCall f call name ∈ c.sites
  sites : ∀ c ∈ componentsOf program, ∀ span ∈ c.statement.macroCalls,
    ∃ site ∈ c.sites, site.span = span
  elsewhere : ∀ t ∈ program, t.isComponent = false → t.macroCalls = []

section

variable {program : List Tree}

/-- In a file without a fault at its top level, statements that declare no component hold no
calls. -/
theorem macroCalls_eq_nil_of_rootFaults_nil (hRoot : rootFaults program (componentsOf program) = [])
    {i : Nat} {t : Tree} (hAt : program[i]? = some t) (hOther : t.isComponent = false) :
    t.macroCalls = [] := by
  have hNone : ¬ (componentsOf program).any (fun c => c.position = i) = true := by
    intro hAny
    obtain ⟨c, hc, hPosition⟩ := List.any_eq_true.mp hAny
    obtain ⟨j, u, hAt', hComponent, rfl⟩ := mem_componentsOf.mp hc
    obtain rfl : j = i := of_decide_eq_true hPosition
    rw [hAt] at hAt'
    rw [← Option.some.inj hAt', hOther] at hComponent
    cases hComponent
  rw [rootFaults, List.flatMap_eq_nil_iff] at hRoot
  have hFaults := hRoot (t, i) (List.mem_zipIdx_iff_getElem?.mpr hAt)
  simp only [if_neg hNone] at hFaults
  split at hFaults
  · cases hFaults
  · exact List.map_eq_nil_iff.mp hFaults

/-- The node at a place of a well placed file lies in the statement of at most one component. -/
theorem component_unique (hPlaced : ScriptPlaced program) {c c' : ComponentDeclaration}
    (hc : c ∈ componentsOf program) (hc' : c' ∈ componentsOf program) {n : Tree}
    (hKind : n.kind = .call) (hn : n ∈ c.statement.preorder) (hn' : n ∈ c'.statement.preorder) :
    c = c' := by
  have hWell := wellPlaced_statement hPlaced hc
  have hCovers := hWell.covers_call hn hKind
  exact eq_of_within_statements hPlaced hc hc' hCovers (hWell.within hn)
    ((wellPlaced_statement hPlaced hc').within hn')

/-- The statement of a component is its function and the parts beside it. -/
theorem splitsAt_of_mem_componentsOf {c : ComponentDeclaration} (hc : c ∈ componentsOf program)
    {f : Tree} (hFunction : c.function = some f) :
    c.statement.SplitsAt f c.statement.besideFunction := by
  rw [function_eq_of_mem_componentsOf hc] at hFunction
  exact Tree.functionInfo_splitsAt hFunction

section

variable (hNoBeside : ∀ c ∈ componentsOf program, ∀ part ∈ c.statement.besideFunction,
  part.macroCalls = [])

include hNoBeside

/-- If the parts beside the function hold no macro call, all of them are in the function. -/
theorem mem_function_of_no_beside {c : ComponentDeclaration} (hc : c ∈ componentsOf program)
    {f n : Tree} (hFunction : c.function = some f) (hn : n ∈ c.statement.preorder)
    (hCall : n.isMacroCall = true) : n ∈ f.preorder := by
  have hSplits := splitsAt_of_mem_componentsOf hc hFunction
  rcases hSplits.calls n hn (Tree.kind_of_isMacroCall hCall) with hIn | ⟨part, hPart, hIn⟩
  · exact hIn
  · rw [Tree.macroCalls_eq_nil.mp (hNoBeside c hc part hPart) n hIn] at hCall
    cases hCall

/-- Without calls beside functions, a call in the statement of a component has that component as its
only owner. -/
theorem existsUnique_owner (hPlaced : ScriptPlaced program) {c : ComponentDeclaration}
    (hc : c ∈ componentsOf program) {f call : Tree} (hFunction : c.function = some f)
    {name : MacroName} (hn : call ∈ c.statement.preorder) (hName : call.macroName? = some name) :
    ∃! c, c ∈ componentsOf program ∧ ∃ f, c.function = some f ∧ call ∈ f.preorder ∧
      MacroSite.ofCall f call name ∈ c.sites := by
  have hCall : call.isMacroCall = true := by rw [Tree.isMacroCall, hName, Option.isSome_some]
  have hInF := mem_function_of_no_beside hNoBeside hc hFunction hn hCall
  refine ⟨c, ⟨hc, f, hFunction, hInF, ?_⟩, ?_⟩
  · rw [sites_of_mem_componentsOf hc hFunction]
    exact Tree.mem_macroSites hInF hName
  · rintro c' ⟨hc', f', hFunction', hn', -⟩
    have hIn' := Tree.mem_preorder_trans hn' (splitsAt_of_mem_componentsOf hc' hFunction').inner
    exact component_unique hPlaced hc' hc (Tree.kind_of_isMacroCall hCall) hIn' hn

end

/-- A call beside the function of a component has no owner. -/
theorem no_owner_beside (hPlaced : ScriptPlaced program) {c : ComponentDeclaration}
    (hc : c ∈ componentsOf program) {f part call : Tree} (hFunction : c.function = some f)
    (hPart : part ∈ c.statement.besideFunction) (hn : call ∈ part.preorder)
    (hKind : call.kind = .call) :
    ¬ ∃ c ∈ componentsOf program, ∃ f, c.function = some f ∧ call ∈ f.preorder := by
  rintro ⟨c', hc', f', hFunction', hn'⟩
  have hSplits := splitsAt_of_mem_componentsOf hc hFunction
  have hIn := Tree.mem_preorder_trans hn (hSplits.within part hPart)
  have hIn' := Tree.mem_preorder_trans hn' (splitsAt_of_mem_componentsOf hc' hFunction').inner
  obtain rfl := component_unique hPlaced hc hc' hKind hIn hIn'
  obtain rfl := Option.some.inj (hFunction.symm.trans hFunction')
  have hWell := wellPlaced_statement hPlaced hc
  have hCovers := hWell.covers_call hIn hKind
  exact (hSplits.apart hWell part hPart).not_within hCovers
    ((hWell.of_mem (hSplits.within part hPart)).within hn)
    ((wellPlaced_function hPlaced hc hFunction).within hn')

/-- Where all macro calls are covered, none stands beside the function of a component. -/
theorem MacroCallsCovered.beside (hCovered : MacroCallsCovered program)
    (hPlaced : ScriptPlaced program) {c : ComponentDeclaration} (hc : c ∈ componentsOf program)
    {f part : Tree} (hFunction : c.function = some f)
    (hPart : part ∈ c.statement.besideFunction) : part.macroCalls = [] := by
  rw [Tree.macroCalls_eq_nil]
  intro n hn
  by_contra hNot
  have hCall : n.isMacroCall = true := by simpa using hNot
  obtain ⟨name, hName⟩ := Option.isSome_iff_exists.mp hCall
  have hIn := Tree.mem_preorder_trans hn
    ((splitsAt_of_mem_componentsOf hc hFunction).within part hPart)
  have hMem : n ∈ program.flatMap Tree.preorder := List.mem_flatMap.mpr
    ⟨c.statement, List.mem_of_getElem? (getElem?_of_mem_componentsOf hc), hIn⟩
  obtain ⟨c', ⟨hc', f', hFunction', hn', -⟩, -⟩ := hCovered.owner n hMem name hName
  exact no_owner_beside hPlaced hc hFunction hPart hn (Tree.kind_of_isMacroCall hCall)
    ⟨c', hc', f', hFunction', hn'⟩

/-- All macro calls of a file are covered if its top level has no fault, every component has a
function and none stands beside one. -/
theorem macroCallsCovered_of_no_beside (hPlaced : ScriptPlaced program)
    (hRoot : rootFaults program (componentsOf program) = [])
    (hFunctions : ∀ c ∈ componentsOf program, ∃ f, c.function = some f)
    (hNoBeside : ∀ c ∈ componentsOf program, ∀ part ∈ c.statement.besideFunction,
      part.macroCalls = []) : MacroCallsCovered program := by
  refine ⟨?_, ?_, ?_⟩
  · intro call hMem name hName
    obtain ⟨t, ht, hIn⟩ := List.mem_flatMap.mp hMem
    obtain ⟨i, hAt⟩ := List.mem_iff_getElem?.mp ht
    cases hComponent : t.isComponent with
    | false =>
        have hNil := macroCalls_eq_nil_of_rootFaults_nil hRoot hAt hComponent
        have hNone := Tree.macroCalls_eq_nil.mp hNil call hIn
        rw [Tree.isMacroCall, hName] at hNone
        cases hNone
    | true =>
        have hc : ComponentDeclaration.ofStatement i t ∈ componentsOf program :=
          mem_componentsOf.mpr ⟨i, t, hAt, hComponent, rfl⟩
        obtain ⟨f, hFunction⟩ := hFunctions _ hc
        exact existsUnique_owner hNoBeside hPlaced hc hFunction hIn hName
  · intro c hc span hSpan
    obtain ⟨n, hn, hCall, rfl⟩ := Tree.mem_macroCalls.mp hSpan
    obtain ⟨f, hFunction⟩ := hFunctions c hc
    obtain ⟨name, hName⟩ := Option.isSome_iff_exists.mp hCall
    have hInF := mem_function_of_no_beside hNoBeside hc hFunction hn hCall
    rw [sites_of_mem_componentsOf hc hFunction]
    exact ⟨_, Tree.mem_macroSites hInF hName, rfl⟩
  · intro t ht hOther
    obtain ⟨i, hAt⟩ := List.mem_iff_getElem?.mp ht
    exact macroCalls_eq_nil_of_rootFaults_nil hRoot hAt hOther

/-- In a file that passes validation, macro calls are covered exactly if no component's statement
holds one beside its function. -/
theorem validate_macroCallsCovered_iff {apis : Reactivity} {log : DiagnosticLog}
    (hPlaced : ScriptPlaced program)
    (hPassed : (validate program (componentsOf program) apis log).1.passed = true) :
    MacroCallsCovered program ↔
      ∀ c ∈ componentsOf program, ∀ part ∈ c.statement.besideFunction, part.macroCalls = [] := by
  obtain ⟨hRoot, hNoError⟩ := passed_iff.mp hPassed
  have hFunctions : ∀ c ∈ componentsOf program, ∃ f, c.function = some f :=
    fun c hc => exists_function_of_no_error (hNoError c hc)
  constructor
  · intro hCovered c hc part hPart
    obtain ⟨f, hFunction⟩ := hFunctions c hc
    exact hCovered.beside hPlaced hc hFunction hPart
  · exact macroCallsCovered_of_no_beside hPlaced hRoot hFunctions

end

theorem macroCallsCovered_card : MacroCallsCovered [cardStatement] := by
  have hPassed : (validate [cardStatement] (componentsOf [cardStatement]) {}
      ⟨"card", "", []⟩).1.passed = true := passed_iff.mpr ⟨by decide, by decide +kernel⟩
  exact (validate_macroCallsCovered_iff (by decide) hPassed).mpr (by decide)

/-- A component whose statement declares a prop beside it. -/
def strayPropStatement : Tree :=
  .node (.variableStatement .const) ⟨0, 65⟩
    [.node (.declarator .const) ⟨6, 37⟩
      [.node (.binding "A") ⟨6, 7⟩ [],
        .node .arrow ⟨10, 37⟩
          [.node .parameters ⟨10, 12⟩ [],
            .node .functionBody ⟨16, 37⟩
              [.node .returnStatement ⟨18, 35⟩
                [.node .taggedTemplate ⟨25, 35⟩
                  [.node (.reference "vine") ⟨25, 29⟩ [],
                    .node .template ⟨29, 35⟩ [.node (.templateText (some "<a/>")) ⟨30, 34⟩ []]]]]]],
      .node (.declarator .const) ⟨39, 65⟩
        [.node (.binding "stray") ⟨39, 44⟩ [],
          .node .call ⟨47, 65⟩
            [.node (.reference "vineProp") ⟨47, 55⟩ [],
              .node .typeArguments ⟨55, 63⟩ [.node .otherType ⟨56, 62⟩ []]]]]

/-- A file passes validation although a macro call in it belongs to no component. -/
theorem strayProp_not_covered :
    ScriptPlaced [strayPropStatement] ∧
      (validate [strayPropStatement] (componentsOf [strayPropStatement]) {}
        ⟨"stray", "", []⟩).1.passed = true ∧
      ¬ MacroCallsCovered [strayPropStatement] := by
  refine ⟨by decide, passed_iff.mpr ⟨by decide, by decide +kernel⟩, ?_⟩
  intro hCovered
  have hc : ComponentDeclaration.ofStatement 0 strayPropStatement ∈
      componentsOf [strayPropStatement] := mem_componentsOf.mpr ⟨0, _, rfl, by decide, rfl⟩
  obtain ⟨site, hSite, -⟩ := hCovered.sites _ hc ⟨47, 65⟩ (by decide)
  have hNone : (ComponentDeclaration.ofStatement 0 strayPropStatement).sites = [] := by decide
  rw [hNone] at hSite
  cases hSite

end ComponentAnalysis
