import ComponentAnalysis.Proofs.Component.BodyDeclarations
import ComponentAnalysis.Proofs.Macro.References
import ComponentAnalysis.Proofs.Tree.Body
import ComponentAnalysis.Proofs.Validation.Outcome
import Mathlib.Data.List.Forall2

/-! Which references the check of hoisted macro calls reports. -/
namespace ComponentAnalysis

namespace Tree

/-- The hoisted macro calls that lie in a part of a function. -/
def hoistedSitesIn (f part : Tree) : List MacroSite :=
  (part.preorder.filterMap fun n => n.macroName?.map (MacroSite.ofCall f n)).filter
    fun site => site.name.base.isHoisted

/-- Each hoisted macro call in a statement of the body with each of its references to a name whose
last declaration stands in a later statement. -/
def forwardReferences (f : Tree) : List (MacroSite × Reference) :=
  f.bodyStatements.zipIdx.flatMap fun (statement, s) =>
    (f.hoistedSitesIn statement).flatMap fun site =>
      (site.references.filter fun r =>
        (lastDeclaring? f.bodyStatements r.name).any fun last => s < last).map fun r => (site, r)

end Tree

/-- The error that reports a reference to a name declared later. -/
def DiagnosticLog.forwardReference (log : DiagnosticLog) (r : Reference) : Diagnostic where
  fileId := log.fileId
  severity := .error
  kind := .hoisting
  message := (Finding.forwardReference r.name).message
  location := locate log.source r.span

section

variable {α β γ : Type}

theorem flatMap_filter_filterMap (h : α → Option β) (p : β → Bool) (g : β → List γ) (xs : List α) :
    ((xs.filterMap h).filter p).flatMap g =
      xs.flatMap fun x => (((h x).filter p).map g).getD [] := by
  induction xs with
  | nil => rfl
  | cons x xs ih =>
      rw [List.flatMap_cons, ← ih, List.filterMap_cons]
      cases hx : h x with
      | none => rfl
      | some y =>
          cases hy : p y with
          | true => simp [Option.filter, hy]
          | false => simp [Option.filter, hy]

theorem flatMap_zipIdx {g : α → List γ} {g' : α × Nat → List γ} (xs : List α)
    (h : ∀ i x, xs[i]? = some x → g x = g' (x, i)) : xs.flatMap g = xs.zipIdx.flatMap g' := by
  have hFst : xs = xs.zipIdx.map Prod.fst := (List.zipIdx_map_fst 0 xs).symm
  conv_lhs => rw [hFst, List.flatMap_map]
  apply List.flatMap_congr
  rintro ⟨x, i⟩ hx
  exact h i x (List.mem_zipIdx_iff_getElem?.mp hx)

end

/-- The faults of one hoisted call, in the statement that the index of the body finds. -/
def hoistedCallFaults (declarations : Table Nat) (body : List Tree) (site : MacroSite) :
    List Located :=
  match ((TreeIndex.ofTrees body).find? site.span).bind (TreeIndex.ofTrees body).rootOf? with
  | none => []
  | some position =>
    site.references.filterMap fun reference =>
      match declarations.find? reference.name with
      | some declaredAt =>
        if declaredAt > position then some (.forwardReference reference.name, reference.span)
        else none
      | none => none

/-- Hoisted calls are checked one by one. -/
theorem hoistingFaults_eq_flatMap (declarations : Table Nat) (body : List Tree)
    (sites : List MacroSite) :
    hoistingFaults declarations body sites =
      (sites.filter fun site => site.name.base.isHoisted).flatMap
        (hoistedCallFaults declarations body) := rfl

section

variable {declarations : Table Nat} {f : Tree} (hWell : f.WellPlaced)
  (hDeclarations : ∀ name, declarations.find? name = lastDeclaring? f.bodyStatements name)

/-- The hoisted sites in a part are those of the calls below it. -/
theorem mem_hoistedSitesIn {part : Tree} {site : MacroSite} :
    site ∈ f.hoistedSitesIn part ↔ ∃ call ∈ part.preorder, ∃ name, call.macroName? = some name ∧
      name.base.isHoisted = true ∧ site = MacroSite.ofCall f call name := by
  simp only [Tree.hoistedSitesIn, List.mem_filter, List.mem_filterMap, Option.map_eq_some_iff]
  constructor
  · rintro ⟨⟨call, hCall, name, hName, rfl⟩, hHoisted⟩
    exact ⟨call, hCall, name, hName, hHoisted, rfl⟩
  · rintro ⟨call, hCall, name, hName, hHoisted, rfl⟩
    exact ⟨⟨call, hCall, name, hName, rfl⟩, hHoisted⟩

include hWell

/-- A call outside of the statements of the body is not checked. -/
theorem hoistedCallFaults_of_apart {n : Tree} {name : MacroName} (hn : n ∈ f.preorder)
    (hName : n.macroName? = some name)
    (hAway : ∀ statement ∈ f.bodyStatements, n.Apart statement) :
    hoistedCallFaults declarations f.bodyStatements (MacroSite.ofCall f n name) = [] := by
  have hCovers := hWell.covers_call hn (Tree.kind_of_macroName? hName)
  have hNone := Tree.find?_bodyStatements_of_apart hWell hCovers hAway
  rw [hoistedCallFaults, MacroSite.span_ofCall, hNone]
  rfl

include hDeclarations

/-- A hoisted call in a statement is faulty for each reference to a name declared behind it. -/
theorem hoistedCallFaults_of_mem {s : Nat} {statement : Tree} {site : MacroSite}
    (hAt : f.bodyStatements[s]? = some statement) (hSite : site ∈ f.hoistedSitesIn statement) :
    hoistedCallFaults declarations f.bodyStatements site =
      (site.references.filter fun r =>
        (lastDeclaring? f.bodyStatements r.name).any fun last => s < last).map fun r =>
          (.forwardReference r.name, r.span) := by
  obtain ⟨n, hn, name, hName, -, rfl⟩ := mem_hoistedSitesIn.mp hSite
  have hMem := Tree.mem_preorder_of_bodyStatements (List.mem_of_getElem? hAt) hn
  have hCovers := hWell.covers_call hMem (Tree.kind_of_macroName? hName)
  have hPlace := Tree.rootOf?_find?_bodyStatements hWell hAt hn hCovers
  rw [hoistedCallFaults, MacroSite.span_ofCall, hPlace, ← List.filterMap_eq_map,
    List.filterMap_filter]
  apply List.filterMap_congr
  intro r _
  rw [hDeclarations]
  cases lastDeclaring? f.bodyStatements r.name with
  | none => rfl
  | some last => simp

/-- The check of hoisted calls finds exactly the forward references of the function. -/
theorem hoistingFaults_eq (hFunction : f.isFunction = true) :
    hoistingFaults declarations f.bodyStatements f.macroSites =
      f.forwardReferences.map fun e => (.forwardReference e.2.name, e.2.span) := by
  have hOther : ∀ n : Tree, n.kind ≠ .call →
      (((n.macroName?.map (MacroSite.ofCall f n)).filter fun site => site.name.base.isHoisted).map
        (hoistedCallFaults declarations f.bodyStatements)).getD [] = [] := by
    intro n hKind
    rw [Tree.macroName?_eq_none hKind]
    rfl
  -- Calls apart from all statements are not found in the index, so only the body counts.
  have hApart : ∀ n ∈ f.preorder, n.kind = .call →
      (∀ statement ∈ f.bodyStatements, n.Apart statement) →
      (((n.macroName?.map (MacroSite.ofCall f n)).filter fun site => site.name.base.isHoisted).map
        (hoistedCallFaults declarations f.bodyStatements)).getD [] = [] := by
    intro n hn _ hAway
    cases hName : n.macroName? with
    | none => rfl
    | some name =>
        have hNone : hoistedCallFaults declarations f.bodyStatements (MacroSite.ofCall f n name) =
            [] := hoistedCallFaults_of_apart hWell hn hName hAway
        cases hHoisted : (MacroSite.ofCall f n name).name.base.isHoisted with
        | true => simp [Option.filter, hHoisted, hNone]
        | false => simp [Option.filter, hHoisted]
  rw [hoistingFaults_eq_flatMap, Tree.macroSites, flatMap_filter_filterMap,
    Tree.flatMap_preorder_eq_body hWell _ hOther hApart hFunction, Tree.forwardReferences,
    List.map_flatMap]
  apply flatMap_zipIdx
  intro s statement hAt
  rw [← flatMap_filter_filterMap, List.map_flatMap]
  apply List.flatMap_congr
  intro site hSite
  rw [hoistedCallFaults_of_mem hWell hDeclarations hAt hSite, List.map_map]
  rfl

end

section

variable {program : List Tree} {apis : Reactivity} {source : String} {c : ComponentDeclaration}
  {f : Tree}

/-- Faults of parameters are no hoisting faults. -/
theorem kind_of_mem_parameterFaults {fault : Located} (h : fault ∈ parameterFaults c f source) :
    fault.1.kind ≠ .hoisting := by
  unfold parameterFaults at h
  split at h
  · rename_i issue _
    rw [List.mem_singleton.mp h]
    cases issue <;> exact DiagnosticKind.noConfusion
  · cases h
  · obtain ⟨site, -, rfl⟩ := List.mem_map.mp h
    exact DiagnosticKind.noConfusion

/-- All faults of a hoisted call are hoisting faults. -/
theorem kind_of_mem_hoistedCallFaults {declarations : Table Nat} {body : List Tree}
    {site : MacroSite} {fault : Located} (h : fault ∈ hoistedCallFaults declarations body site) :
    fault.1.kind = .hoisting := by
  unfold hoistedCallFaults at h
  split at h
  · cases h
  · obtain ⟨reference, -, hFault⟩ := List.mem_filterMap.mp h
    split at hFault
    · split at hFault
      · rw [← Option.some.inj hFault]
        rfl
      · cases hFault
    · cases hFault

/-- The hoisting faults of a component are those of its hoisted calls. -/
theorem filter_hoisting_componentFaults (hFunction : c.function = some f) :
    (componentFaults program apis source c).filter (fun fault => fault.1.kind = .hoisting) =
      hoistingFaults
        (classifyBindings program apis c f (propsAlias? f source)).declarations f.bodyStatements
        c.sites := by
  have hNone : ∀ faults : List Located, (∀ fault ∈ faults, fault.1.kind ≠ .hoisting) →
      faults.filter (fun fault => fault.1.kind = .hoisting) = [] := by
    intro faults h
    exact List.filter_eq_nil_iff.mpr fun fault hFault => by simpa using h fault hFault
  -- Of the checks of a component only the last one finds faults of this kind.
  simp only [componentFaults, hFunction, List.filter_append]
  rw [hNone, hNone _ fun fault => kind_of_mem_parameterFaults, hNone, hNone, List.nil_append,
    List.nil_append, List.nil_append, List.nil_append]
  · apply List.filter_eq_self.mpr
    intro fault hFault
    rw [hoistingFaults_eq_flatMap] at hFault
    obtain ⟨site, -, hFault⟩ := List.mem_flatMap.mp hFault
    exact decide_eq_true (kind_of_mem_hoistedCallFaults hFault)
  · intro fault hFault
    obtain ⟨site, -, hFault⟩ := List.mem_flatMap.mp hFault
    obtain ⟨finding, hFinding, rfl⟩ := List.mem_map.mp hFault
    rw [(isMisuse_of_mem_siteFaults hFinding).2]
    exact DiagnosticKind.noConfusion
  · intro fault hFault
    obtain ⟨site, -, rfl⟩ := List.mem_map.mp hFault
    exact DiagnosticKind.noConfusion
  · intro fault hFault
    cases hMarkup : c.markup with
    | none => simp [hMarkup] at hFault
    | some markup =>
        cases hInterpolated : markup.isInterpolated with
        | false => simp [hMarkup, hInterpolated] at hFault
        | true =>
            simp only [hMarkup, hInterpolated, if_true, List.mem_singleton] at hFault
            rw [hFault]
            exact DiagnosticKind.noConfusion

end

/-- The diagnostics of a file come in one segment for each component. The hoisting diagnostics of a
segment are, with multiplicity, one error for each reference in a hoisted call to a name whose last
declaration stands in a later statement of the body than the call. -/
structure HoistingExact (program : List Tree) (apis : Reactivity) (log : DiagnosticLog) : Prop where
  segments : ∃ segments,
    (validate program (componentsOf program) apis log).2.items = log.items ++ segments.flatten ∧
      List.Forall₂ (fun (c : ComponentDeclaration) (segment : List Diagnostic) =>
        (segment.filter fun d => d.kind = .hoisting).Perm
          ((c.function.elim [] Tree.forwardReferences).map fun e => log.forwardReference e.2))
        (componentsOf program) segments
  places : ∀ c ∈ componentsOf program, ∀ f, c.function = some f → ∀ s statement,
    f.bodyStatements[s]? = some statement → ∀ call ∈ statement.preorder, call.isMacroCall = true →
      ((TreeIndex.ofTrees f.bodyStatements).find? call.span).bind
        (TreeIndex.ofTrees f.bodyStatements).rootOf? = some s

section

variable {program : List Tree} {apis : Reactivity} {log : DiagnosticLog}
  (hPlaced : ScriptPlaced program)

include hPlaced

variable (apis log) in
/-- The hoisting diagnostics of a component are its forward references, with multiplicity. -/
theorem filter_hoisting_componentDiagnostics {c : ComponentDeclaration}
    (hc : c ∈ componentsOf program) :
    ((componentDiagnostics program apis log c).filter fun d => d.kind = .hoisting).Perm
      ((c.function.elim [] Tree.forwardReferences).map fun e => log.forwardReference e.2) := by
  have hPerm := (componentDiagnostics_perm program apis log c).filter fun d => d.kind = .hoisting
  apply hPerm.trans
  rw [List.filter_map]
  have hKind : ((fun d : Diagnostic => decide (d.kind = .hoisting)) ∘ log.diagnostic) =
      fun fault => decide (fault.1.kind = .hoisting) := rfl
  rw [hKind]
  cases hFunction : c.function with
  | none =>
      have hFaults : componentFaults program apis log.source c =
          [(.notAFunction c.name, c.span)] := by
        simp [componentFaults, hFunction]
      rw [hFaults]
      exact List.Perm.refl _
  | some f =>
      rw [filter_hoisting_componentFaults hFunction, sites_of_mem_componentsOf hc hFunction,
        hoistingFaults_eq (wellPlaced_function hPlaced hc hFunction)
          (find?_declarations program apis c f _) (isFunction_of_mem_componentsOf hc hFunction),
        List.map_map]
      exact List.Perm.refl _

/-- Hoisting errors are exact by body statement: when validation of a structurally sound file ends,
the hoisting diagnostics of each component are its forward references, and the index of a body finds
the statement that holds a macro call, whatever other nodes share the span of the call. -/
theorem validate_hoistingExact
    (hOk : (validate program (componentsOf program) apis log).1.structuralOk = true) :
    HoistingExact program apis log := by
  constructor
  · refine ⟨(componentsOf program).map (componentDiagnostics program apis log), ?_, ?_⟩
    · rw [items_of_structuralOk hOk, List.flatMap_def]
    · rw [List.forall₂_map_right_iff, List.forall₂_same]
      intro c hc
      exact filter_hoisting_componentDiagnostics apis log hPlaced hc
  · intro c hc f hFunction s statement hAt call hCall hMacro
    have hWell := wellPlaced_function hPlaced hc hFunction
    obtain ⟨name, hName⟩ := Option.isSome_iff_exists.mp hMacro
    have hMem := Tree.mem_preorder_of_bodyStatements (List.mem_of_getElem? hAt) hCall
    have hCovers := hWell.covers_call hMem (Tree.kind_of_macroName? hName)
    exact Tree.rootOf?_find?_bodyStatements hWell hAt hCall hCovers

end

/-- A component whose prop refers to a name that the next statement declares. -/
def latePropStatement : Tree :=
  .node (.function .declaration) ⟨0, 96⟩
    [.node (.binding "A") ⟨9, 10⟩ [],
      .node .parameters ⟨10, 12⟩ [],
      .node .functionBody ⟨13, 96⟩
        [.node (.variableStatement .const) ⟨17, 56⟩
          [.node (.declarator .const) ⟨23, 56⟩
            [.node (.binding "p") ⟨23, 24⟩ [],
              .node .call ⟨27, 56⟩
                [.node (.reference "vineProp") ⟨27, 35⟩ [],
                  .node .typeArguments ⟨35, 43⟩ [.node .otherType ⟨36, 42⟩ []],
                  .node .arrow ⟨44, 55⟩
                    [.node .parameters ⟨44, 46⟩ [],
                      .node .functionBody ⟨50, 55⟩
                        [.node .expressionStatement ⟨50, 55⟩
                          [.node (.reference "later") ⟨50, 55⟩ []]]]]]],
          .node (.variableStatement .const) ⟨59, 74⟩
            [.node (.declarator .const) ⟨65, 74⟩
              [.node (.binding "later") ⟨65, 70⟩ [], .node (.number "1") ⟨73, 74⟩ []]],
          .node .returnStatement ⟨77, 94⟩
            [.node .taggedTemplate ⟨84, 94⟩
              [.node (.reference "vine") ⟨84, 88⟩ [],
                .node .template ⟨88, 94⟩ [.node (.templateText (some "<a/>")) ⟨89, 93⟩ []]]]]]

def latePropLog : DiagnosticLog where
  fileId := "late"
  source := "function A() \x7b\n  const p = vineProp<string>(() => later)\n  const later = 1\n" ++
    "  return vine`<a/>`\n\x7d\n"

/-- A prop whose default refers to a later name. -/
theorem validate_hoistingExact_lateProp :
    ScriptPlaced [latePropStatement] ∧
      (validate [latePropStatement] (componentsOf [latePropStatement]) {}
        latePropLog).1.structuralOk = true ∧
      HoistingExact [latePropStatement] {} latePropLog :=
  ⟨by decide, structuralOk_iff.mpr (by decide +kernel),
    validate_hoistingExact (by decide) (structuralOk_iff.mpr (by decide +kernel))⟩

end ComponentAnalysis
