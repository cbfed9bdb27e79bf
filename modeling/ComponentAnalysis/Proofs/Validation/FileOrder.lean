import ComponentAnalysis.Proofs.Tree.Returned
import ComponentAnalysis.Proofs.Tree.WalkOrder
import ComponentAnalysis.Proofs.Validation.Composition
import ComponentAnalysis.Proofs.Validation.SourceOrder

/-! The diagnostics of a file come in the order of its text. Validation sorts those of one component
at a time. Each of them stands at a node of the component's statement, so those of a later component
come later in the text. -/
namespace ComponentAnalysis

/-- Diagnostics in the order of their file: they are sorted by where they start, and those that
start together keep the order in which they were raised. -/
structure InFileOrder (raised added : List Diagnostic) : Prop where
  sorted : added.Pairwise fun a b => a.location.start ≤ b.location.start
  stable : ∀ start, added.filter (fun d => d.location.start = start) =
    raised.filter fun d => d.location.start = start

/-- Sorted diagnostics are in order as they are. -/
theorem InFileOrder.of_sorted {ds : List Diagnostic}
    (h : ds.Pairwise fun a b => a.location.start ≤ b.location.start) : InFileOrder ds ds :=
  ⟨h, fun _ => rfl⟩

/-- A stable sort puts them in order. -/
theorem inFileOrder_mergeSort (ds : List Diagnostic) :
    InFileOrder ds (ds.mergeSort fun a b => a.location.start ≤ b.location.start) := by
  have hTrans : ∀ a b c : Diagnostic, decide (a.location.start ≤ b.location.start) = true →
      decide (b.location.start ≤ c.location.start) = true →
      decide (a.location.start ≤ c.location.start) = true := by
    intro a b c hab hbc
    exact decide_eq_true (Nat.le_trans (of_decide_eq_true hab) (of_decide_eq_true hbc))
  have hTotal : ∀ a b : Diagnostic, (decide (a.location.start ≤ b.location.start) ||
      decide (b.location.start ≤ a.location.start)) = true := by
    intro a b
    simpa using Nat.le_total a.location.start b.location.start
  constructor
  · exact (List.pairwise_mergeSort hTrans hTotal ds).imp of_decide_eq_true
  · intro start
    have hSame : ∀ d ∈ ds.filter (fun d => d.location.start = start), d.location.start = start :=
      fun d hd => of_decide_eq_true (List.mem_filter.mp hd).2
    have hSorted : (ds.filter fun d => d.location.start = start).Pairwise
        fun a b => decide (a.location.start ≤ b.location.start) = true := by
      apply List.pairwise_of_forall_mem_list
      intro a ha b hb
      exact decide_eq_true (Nat.le_of_eq ((hSame a ha).trans (hSame b hb).symm))
    -- A sorted part of a list is still a part of the sorted list, so here it is all of it.
    have hPart := (List.sublist_mergeSort hTrans hTotal hSorted List.filter_sublist).filter
      fun d => d.location.start = start
    simp only [List.filter_filter, Bool.and_self] at hPart
    exact (hPart.eq_of_length ((List.mergeSort_perm ds _).filter _).length_eq.symm).symm

/-- Segments that are in order and come one behind the other are in order as a whole. -/
theorem InFileOrder.flatMap {α : Type} {items : List α} {raised added : α → List Diagnostic}
    (hEach : ∀ x ∈ items, InFileOrder (raised x) (added x))
    (hApart : items.Pairwise fun x y =>
      ∀ a ∈ added x, ∀ b ∈ added y, a.location.start ≤ b.location.start) :
    InFileOrder (items.flatMap raised) (items.flatMap added) := by
  refine ⟨List.pairwise_flatMap.mpr ⟨fun x hx => (hEach x hx).sorted, hApart⟩, fun start => ?_⟩
  rw [List.filter_flatMap, List.filter_flatMap]
  exact List.flatMap_congr fun x hx => (hEach x hx).stable start

namespace Tree

/-- What is wrong with a parameter is reported at a node of the function. -/
theorem exists_node_of_formalProps_error {f : Tree} {source : String} {issue : PropsIssue}
    (h : formalProps f source = .error issue) : ∃ n ∈ f.preorder, n.span = issue.fault.2 := by
  unfold formalProps at h
  split at h
  · cases h
  · rename_i first _ _ hParameters
    cases h
    obtain ⟨list, hMem, hList, -⟩ :=
      exists_parameterList_of_mem (hParameters ▸ List.mem_cons_self : first ∈ f.parameters)
    exact ⟨list, hMem, by rw [hList]; rfl⟩
  · rename_i parameter hParameters
    obtain ⟨list, hMem, -, hIn⟩ :=
      exists_parameterList_of_mem (hParameters ▸ List.mem_cons_self : parameter ∈ f.parameters)
    have hParameter : parameter ∈ f.preorder := mem_preorder_trans hIn hMem
    split at h
    · cases h
      exact ⟨parameter, hParameter, rfl⟩
    · split at h
      · cases h
        exact ⟨parameter, hParameter, rfl⟩
      · rename_i ascription hAscription
        split at h
        · cases h
        · cases h
          have hIn := mem_preorder_of_mem_children (mem_children_of_child? hAscription)
          exact ⟨ascription, mem_preorder_trans hIn hParameter, rfl⟩

theorem exists_node_of_markup? {f : Tree} {markup : Markup} (h : f.markup? = some markup) :
    ∃ n ∈ f.preorder, n.span = markup.span := by
  obtain ⟨n, hn, hReturned⟩ := List.mem_filterMap.mp (List.mem_of_getLast? h)
  obtain ⟨span, value, rest, tag, template, rfl, -, -, rfl⟩ := returnedMarkup?_eq_some hReturned
  exact ⟨value, mem_preorder_trans (mem_preorder_of_mem_children List.mem_cons_self) hn, rfl⟩

/-- Each site is that of a call in the function. -/
theorem exists_call_of_mem_macroSites {f : Tree} {site : MacroSite} (h : site ∈ f.macroSites) :
    ∃ call ∈ f.preorder, ∃ name, site = .ofCall f call name := by
  obtain ⟨call, hCall, hSome⟩ := List.mem_filterMap.mp h
  obtain ⟨name, -, rfl⟩ := Option.map_eq_some_iff.mp hSome
  exact ⟨call, hCall, name, rfl⟩

end Tree

section

variable {program : List Tree} {apis : Reactivity} {log : DiagnosticLog} {source : String}
  {c : ComponentDeclaration} {fault : Located}

/-- So it stands at a node of the function. -/
theorem exists_node_of_mem_sites (hc : c ∈ componentsOf program) {f : Tree}
    (hFunction : c.function = some f) {site : MacroSite} (hSite : site ∈ c.sites) :
    ∃ n ∈ f.preorder, n.span = site.span := by
  rw [sites_of_mem_componentsOf hc hFunction] at hSite
  obtain ⟨call, hCall, name, rfl⟩ := Tree.exists_call_of_mem_macroSites hSite
  exact ⟨call, hCall, rfl⟩

theorem exists_node_of_mem_parameterFaults (hc : c ∈ componentsOf program) {f : Tree}
    (hFunction : c.function = some f) (h : fault ∈ parameterFaults c f source) :
    ∃ n ∈ f.preorder, n.span = fault.2 := by
  unfold parameterFaults at h
  split at h
  · rename_i issue hIssue
    rw [List.mem_singleton.mp h]
    exact Tree.exists_node_of_formalProps_error hIssue
  · cases h
  · obtain ⟨site, hSite, rfl⟩ := List.mem_map.mp h
    have hFirst := List.mem_of_head? (Option.mem_toList.mp hSite)
    exact exists_node_of_mem_sites hc hFunction (List.mem_of_mem_filter hFirst)

/-- Every fault of a component stands at a node of its statement. -/
theorem FaultOf.exists_node (hc : c ∈ componentsOf program) (h : FaultOf c source fault) :
    ∃ n ∈ c.statement.preorder, n.span = fault.2 := by
  have hIn : ∀ {f : Tree}, c.function = some f → (∃ n ∈ f.preorder, n.span = fault.2) →
      ∃ n ∈ c.statement.preorder, n.span = fault.2 := by
    rintro f hFunction ⟨n, hn, hSpan⟩
    rw [function_eq_of_mem_componentsOf hc] at hFunction
    exact ⟨n, Tree.mem_preorder_trans hn (Tree.functionInfo_mem_preorder hFunction), hSpan⟩
  cases h with
  | noFunction => exact ⟨c.statement, c.statement.mem_preorder_self, rfl⟩
  | markup hFunction hMarkup =>
      rw [markup_of_mem_componentsOf hc hFunction] at hMarkup
      exact hIn hFunction (Tree.exists_node_of_markup? hMarkup)
  | parameter hFunction hFault =>
      exact hIn hFunction (exists_node_of_mem_parameterFaults hc hFunction hFault)
  | repeated hFunction hSite | site hFunction hSite =>
      exact hIn hFunction (exists_node_of_mem_sites hc hFunction hSite)
  | reference hFunction hSite hReference =>
      rw [sites_of_mem_componentsOf hc hFunction] at hSite
      obtain ⟨call, hCall, name, rfl⟩ := Tree.exists_call_of_mem_macroSites hSite
      obtain ⟨n, hn, -, hSpan⟩ := MacroSite.exists_node_of_mem_references hReference
      exact hIn hFunction ⟨n, Tree.mem_preorder_trans hn hCall, hSpan⟩

/-- The faults of a component come before those of a later one. -/
theorem FaultOf.start_le {c' : ComponentDeclaration} {fault' : Located}
    (hPlaced : ScriptPlaced program) (hc : c ∈ componentsOf program)
    (hc' : c' ∈ componentsOf program) (hBefore : c.statement.Before c'.statement)
    (h : FaultOf c source fault) (h' : FaultOf c' source fault') :
    fault.2.start ≤ fault'.2.start := by
  obtain ⟨m, hm, hSpan⟩ := h.exists_node hc
  obtain ⟨n, hn, hSpan'⟩ := h'.exists_node hc'
  rw [← hSpan, ← hSpan']
  exact hBefore.start_le (wellPlaced_statement hPlaced hc) (wellPlaced_statement hPlaced hc') hm hn

/-- A fault at the top stands at a node of its statement. -/
theorem exists_node_of_mem_rootFaults {t : Tree} (h : fault ∈ t.rootFaults) :
    ∃ n ∈ t.preorder, n.span = fault.2 := by
  unfold Tree.rootFaults at h
  split at h
  · rw [List.mem_singleton.mp h]
    exact ⟨t, t.mem_preorder_self, rfl⟩
  · split at h
    · cases h
    · obtain ⟨call, hCall, rfl⟩ := List.mem_map.mp h
      obtain ⟨n, hn, -, hSpan⟩ := Tree.mem_macroCalls.mp hCall
      exact ⟨n, hn, hSpan⟩

/-- The faults of a statement at the top level come in the order of the text. -/
theorem pairwise_rootFaults {t : Tree} (h : t.LaidOut) :
    t.rootFaults.Pairwise fun a b => a.2.start ≤ b.2.start := by
  unfold Tree.rootFaults
  split
  · exact List.pairwise_singleton _ _
  · split
    · exact List.Pairwise.nil
    · exact List.pairwise_map.mpr h.pairwise_macroCalls

/-- The faults of the top level come in the order of the text. -/
theorem pairwise_flatMap_rootFaults (h : ScriptOrdered program) :
    (program.flatMap Tree.rootFaults).Pairwise fun a b => a.2.start ≤ b.2.start := by
  refine List.pairwise_flatMap.mpr ⟨fun t ht => ?_, ?_⟩
  · exact pairwise_rootFaults ⟨h.each t ht, h.walk t ht⟩
  · apply h.apart.imp_of_mem
    intro t u ht hu hBefore fault hFault fault' hFault'
    obtain ⟨m, hm, hSpan⟩ := exists_node_of_mem_rootFaults hFault
    obtain ⟨n, hn, hSpan'⟩ := exists_node_of_mem_rootFaults hFault'
    rw [← hSpan, ← hSpan']
    exact hBefore.start_le (h.each t ht) (h.each u hu) hm hn

/-- Components are in the order of their statements. -/
theorem pairwise_componentsOf (h : program.Pairwise Tree.Before) :
    (componentsOf program).Pairwise fun c c' => c.statement.Before c'.statement := by
  have hStatements : program.zipIdx.Pairwise fun t u => t.1.Before u.1 := by
    apply List.pairwise_map.mp
    rwa [List.zipIdx_map_fst]
  apply List.pairwise_filterMap.mpr
  apply hStatements.imp
  rintro ⟨t, i⟩ ⟨u, j⟩ hBefore c hc c' hc'
  obtain ⟨-, hc⟩ := Option.ite_none_right_eq_some.mp hc
  obtain ⟨-, hc'⟩ := Option.ite_none_right_eq_some.mp hc'
  cases hc
  cases hc'
  exact hBefore

variable (program apis log) in
/-- The diagnostics of a file in the order in which its checks raise them. -/
def raised : List Diagnostic :=
  let faults := rootFaults program (componentsOf program)
  (if faults.isEmpty then
      (componentsOf program).flatMap (componentFaults program apis log.source)
    else faults).map log.diagnostic

/-- If nothing is wrong at the top, the checks of components raise all diagnostics. -/
theorem raised_of_rootFaults_nil (h : rootFaults program (componentsOf program) = []) :
    raised program apis log = (componentsOf program).flatMap fun c =>
      (componentFaults program apis log.source c).map log.diagnostic := by
  simp only [raised, h, List.isEmpty_nil, if_true, List.map_flatMap]

/-- Otherwise only the checks at the top do. -/
theorem raised_of_rootFaults_ne_nil (h : rootFaults program (componentsOf program) ≠ []) :
    raised program apis log = (program.flatMap Tree.rootFaults).map log.diagnostic := by
  rw [raised, if_neg (by simpa using h), rootFaults_eq_flatMap]

end

/-- What validation appends to a log is in the order of the file, be it faults of the top level or
those of components. -/
theorem validate_inFileOrder {program : List Tree} (hOrdered : ScriptOrdered program)
    (apis : Reactivity) (log : DiagnosticLog) :
    InFileOrder (raised program apis log) (appended program apis log) := by
  by_cases hRoot : rootFaults program (componentsOf program) = []
  · rw [raised_of_rootFaults_nil hRoot, appended_of_rootFaults_nil hRoot,
      ← componentDiagnostics_eq_flatMap program apis log]
    refine InFileOrder.flatMap (fun c _ => inFileOrder_mergeSort _) ?_
    apply (pairwise_componentsOf hOrdered.apart).imp_of_mem
    intro c c' hc hc' hBefore a ha b hb
    obtain ⟨fault, hFault, rfl⟩ := mem_componentDiagnostics.mp ha
    obtain ⟨fault', hFault', rfl⟩ := mem_componentDiagnostics.mp hb
    exact (faultOf_of_mem hFault).start_le hOrdered.toScriptPlaced hc hc' hBefore
      (faultOf_of_mem hFault')
  · rw [raised_of_rootFaults_ne_nil hRoot, appended_of_rootFaults_ne_nil hRoot]
    apply InFileOrder.of_sorted
    exact List.pairwise_map.mpr (pairwise_flatMap_rootFaults hOrdered)

/-- Two components. What is wrong with the markup of the first one is raised before what is wrong
with its macro call, twice in one place. -/
def interpolatedProgram : List Tree :=
  [.node (.function .declaration) ⟨0, 56⟩
      [.node (.binding "A") ⟨9, 10⟩ [],
        .node .parameters ⟨10, 12⟩ [],
        .node .functionBody ⟨13, 56⟩
          [.node .expressionStatement ⟨17, 27⟩
            [.node .call ⟨17, 27⟩ [.node (.reference "vineProp") ⟨17, 25⟩ []]],
            .node .returnStatement ⟨30, 54⟩
              [.node .taggedTemplate ⟨37, 54⟩
                [.node (.reference "vine") ⟨37, 41⟩ [],
                  .node .template ⟨41, 54⟩
                    [.node (.templateText (some "<a>")) ⟨42, 45⟩ [],
                      .node (.templateText (some "</a>")) ⟨49, 53⟩ [],
                      .node (.reference "x") ⟨47, 48⟩ []]]]]],
    .node (.function .declaration) ⟨57, 108⟩
      [.node (.binding "B") ⟨66, 67⟩ [],
        .node .parameters ⟨67, 69⟩ [],
        .node .functionBody ⟨70, 108⟩
          [.node .expressionStatement ⟨74, 86⟩
            [.node .call ⟨74, 86⟩ [.node (.reference "vineExpose") ⟨74, 84⟩ []]],
            .node .returnStatement ⟨89, 106⟩
              [.node .taggedTemplate ⟨96, 106⟩
                [.node (.reference "vine") ⟨96, 100⟩ [],
                  .node .template ⟨100, 106⟩
                    [.node (.templateText (some "<b/>")) ⟨101, 105⟩ []]]]]]]

def interpolatedLog : DiagnosticLog where
  fileId := "interpolated"
  source := "function A() \x7b\n  vineProp()\n  return vine`<a>$\x7bx\x7d</a>`\n\x7d\n" ++
    "function B() \x7b\n  vineExpose()\n  return vine`<b/>`\n\x7d\n"

/-- Two components whose checks raise diagnostics in another order. -/
theorem validate_inFileOrder_interpolated :
    ScriptOrdered interpolatedProgram ∧
      (raised interpolatedProgram {} interpolatedLog).map (fun d => d.location.start) =
        [37, 17, 17, 74] ∧
      InFileOrder (raised interpolatedProgram {} interpolatedLog)
        (appended interpolatedProgram {} interpolatedLog) :=
  have hOrdered : ScriptOrdered interpolatedProgram := by decide
  ⟨hOrdered, by decide +kernel, validate_inFileOrder hOrdered {} interpolatedLog⟩

end ComponentAnalysis
