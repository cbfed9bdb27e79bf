import ComponentAnalysis.Proofs.Validation.Hoisting

/-! The faults of one component: which checks find them, at which places, and that they depend on
the statement of the component alone. -/
namespace ComponentAnalysis

theorem mem_of_mem_duplicatedSingletons {sites : List MacroSite} {site : MacroSite}
    (h : site ∈ duplicatedSingletons sites) : site ∈ sites := by
  have hGo : ∀ seen sites, site ∈ duplicatedSingletons.go seen sites → site ∈ sites := by
    intro seen sites
    induction sites generalizing seen with
    | nil => exact id
    | cons first rest ih =>
        intro hMem
        unfold duplicatedSingletons.go at hMem
        split at hMem
        · exact List.mem_cons.mpr ((List.mem_cons.mp hMem).imp id (ih seen))
        · exact List.mem_cons_of_mem first (ih _ hMem)
  exact List.mem_of_mem_filter (hGo [] _ h)

/-- A hoisting fault is at a reference of some site. -/
theorem reference_of_mem_hoistingFaults {declarations : Table Nat} {body : List Tree}
    {sites : List MacroSite} {fault : Located}
    (h : fault ∈ hoistingFaults declarations body sites) :
    ∃ site ∈ sites, ∃ r ∈ site.references, fault = (.forwardReference r.name, r.span) := by
  rw [hoistingFaults_eq_flatMap] at h
  obtain ⟨site, hSite, hFault⟩ := List.mem_flatMap.mp h
  unfold hoistedCallFaults at hFault
  split at hFault
  · cases hFault
  · obtain ⟨r, hr, hSome⟩ := List.mem_filterMap.mp hFault
    refine ⟨site, List.mem_of_mem_filter hSite, r, hr, ?_⟩
    split at hSome
    · split at hSome
      · exact (Option.some.inj hSome).symm
      · cases hSome
    · cases hSome

/-- What can be a fault of a component, by the check that finds it. -/
inductive FaultOf (c : ComponentDeclaration) (source : String) : Located → Prop
  | noFunction (hFunction : c.function = none) : FaultOf c source (.notAFunction c.name, c.span)
  | markup {f : Tree} {markup : Markup} (hFunction : c.function = some f)
      (hMarkup : c.markup = some markup) : FaultOf c source (.interpolatedMarkup, markup.span)
  | parameter {f : Tree} {fault : Located} (hFunction : c.function = some f)
      (hFault : fault ∈ parameterFaults c f source) : FaultOf c source fault
  | repeated {f : Tree} {site : MacroSite} (hFunction : c.function = some f)
      (hSite : site ∈ c.sites) : FaultOf c source (.repeatedMacro site.name.base, site.span)
  | site {f : Tree} {site : MacroSite} {finding : Finding} (hFunction : c.function = some f)
      (hSite : site ∈ c.sites) (hFinding : finding ∈ siteFaults site) :
      FaultOf c source (finding, site.span)
  | reference {f : Tree} {site : MacroSite} {r : Reference} (hFunction : c.function = some f)
      (hSite : site ∈ c.sites) (hReference : r ∈ site.references) :
      FaultOf c source (.forwardReference r.name, r.span)

section

variable {program : List Tree} {apis : Reactivity} {source : String} {c : ComponentDeclaration}
  {fault : Located}

/-- Every fault of a component comes from one of the checks. -/
theorem faultOf_of_mem (h : fault ∈ componentFaults program apis source c) :
    FaultOf c source fault := by
  cases hFunction : c.function with
  | none =>
      simp only [componentFaults, hFunction, List.mem_singleton] at h
      rw [h]
      exact .noFunction hFunction
  | some f =>
      simp only [componentFaults, hFunction, List.mem_append, List.mem_map, List.mem_flatMap] at h
      obtain (((hMarkup | hParameter) | ⟨site, hSite, rfl⟩) |
        ⟨site, hSite, finding, hFinding, rfl⟩) | hReference := h
      · split at hMarkup
        · rename_i markup hSome
          split at hMarkup
          · rw [List.mem_singleton.mp hMarkup]
            exact .markup hFunction hSome
          · cases hMarkup
        · cases hMarkup
      · exact .parameter hFunction hParameter
      · exact .repeated hFunction (mem_of_mem_duplicatedSingletons hSite)
      · exact .site hFunction hSite hFinding
      · obtain ⟨site, hSite, r, hr, rfl⟩ := reference_of_mem_hoistingFaults hReference
        exact .reference hFunction hSite hr

/-- The checks of components find no structural faults. -/
theorem FaultOf.kind_ne_structural (h : FaultOf c source fault) : fault.1.kind ≠ .structural := by
  cases h with
  | site _ _ hFinding =>
      rw [(isMisuse_of_mem_siteFaults hFinding).2]
      exact DiagnosticKind.noConfusion
  | parameter _ hFault =>
      unfold parameterFaults at hFault
      split at hFault
      · rename_i issue _
        rw [List.mem_singleton.mp hFault]
        cases issue <;> exact DiagnosticKind.noConfusion
      · cases hFault
      · obtain ⟨site, -, rfl⟩ := List.mem_map.mp hFault
        exact DiagnosticKind.noConfusion
  | _ => exact DiagnosticKind.noConfusion

/-- Only lookups in the table of declarations matter, not its order. -/
theorem hoistingFaults_congr {declarations declarations' : Table Nat}
    (h : ∀ name, declarations.find? name = declarations'.find? name) (body : List Tree)
    (sites : List MacroSite) :
    hoistingFaults declarations body sites = hoistingFaults declarations' body sites := by
  rw [hoistingFaults_eq_flatMap, hoistingFaults_eq_flatMap]
  apply List.flatMap_congr
  intro site _
  simp only [hoistedCallFaults, h]

/-- The faults of a component do not depend on the other statements of the file, on what the file
imports or on the place of the statement in the file. -/
theorem componentFaults_ofStatement (program : List Tree) (apis : Reactivity) (source : String)
    (position : Nat) (t : Tree) :
    componentFaults program apis source (.ofStatement position t) =
      componentFaults [t] {} source (.ofStatement 0 t) := by
  cases hFunction : t.functionInfo.1 with
  | none => simp only [componentFaults, ComponentDeclaration.ofStatement, hFunction]; rfl
  | some f =>
      simp only [componentFaults, ComponentDeclaration.ofStatement, hFunction]
      congr 1
      apply hoistingFaults_congr
      intro name
      rw [find?_declarations, find?_declarations]

end

end ComponentAnalysis
