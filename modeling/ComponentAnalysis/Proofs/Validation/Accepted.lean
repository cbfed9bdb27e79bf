import ComponentAnalysis.Component.Analysis
import ComponentAnalysis.Proofs.Validation.Outcome

/-! What the call sites of a component look like when validation finds no error in it: a family that
may be called once is called at most once, and every call can be read by the analysis. -/
namespace ComponentAnalysis

section

variable {sites : List MacroSite}

/-- If no site repeats a family, all families differ, also from those that have been seen. -/
theorem go_duplicatedSingletons_eq_nil {seen : List MacroBase}
    (h : duplicatedSingletons.go seen sites = []) :
    (sites.map fun site => site.name.base).Nodup ∧ ∀ site ∈ sites, site.name.base ∉ seen := by
  induction sites generalizing seen with
  | nil => simp
  | cons site sites ih =>
      rw [duplicatedSingletons.go] at h
      split at h
      · cases h
      · rename_i hNew
        obtain ⟨hDistinct, hUnseen⟩ := ih h
        have hFresh : site.name.base ∉ seen := by simpa using hNew
        constructor
        · rw [List.map_cons, List.nodup_cons]
          refine ⟨?_, hDistinct⟩
          intro hMem
          obtain ⟨other, hOther, hBase⟩ := List.mem_map.mp hMem
          exact hUnseen other hOther (by rw [hBase]; exact List.mem_cons_self)
        · intro other hMem
          rcases List.mem_cons.mp hMem with rfl | hMem
          · exact hFresh
          · exact fun hSeen => hUnseen other hMem (List.mem_cons_of_mem _ hSeen)

/-- Without a repeated call, a family that may be called once has at most one call. -/
theorem sitesOf_eq_of_duplicatedSingletons_nil (h : duplicatedSingletons sites = [])
    {base : MacroBase} (hSingleton : base.isSingleton = true) :
    sitesOf base sites = [] ∨ ∃ site, sitesOf base sites = [site] := by
  -- All calls of the family are calls of singleton families, among which its base stands once.
  have hSame : sitesOf base sites =
      (sites.filter fun site => site.name.base.isSingleton).filter
        fun site => site.name.base = base := by
    rw [sitesOf, List.filter_filter]
    apply List.filter_congr
    intro site _
    by_cases hBase : site.name.base = base
    · simp [hBase, hSingleton]
    · simp [hBase]
  have hDistinct := (go_duplicatedSingletons_eq_nil h).1
  have hCount := List.nodup_iff_count.mp hDistinct base
  rw [List.count_eq_countP, List.countP_map, List.countP_eq_length_filter] at hCount
  have hLength : (sitesOf base sites).length ≤ 1 := by
    rw [hSame]
    exact hCount
  cases hSites : sitesOf base sites with
  | nil => exact Or.inl rfl
  | cons site rest =>
      rw [hSites, List.length_cons] at hLength
      have hRest : rest = [] := List.eq_nil_of_length_eq_zero (by omega)
      exact Or.inr ⟨site, by rw [hRest]⟩

end

section

variable {site : MacroSite}

/-! Which calls the checks accept, by family. -/

/-- A prop has to be bound and to have its type or its default. -/
theorem siteFaults_prop_iff (hBase : site.name.base = .prop) :
    siteFaults site = [] ↔ site.binding ≠ none ∧
      if site.name.variant = some .withDefault then
        site.arguments ≠ [] ∧ site.arguments.length ≤ 2
      else site.typeArgumentCount ≠ 0 ∧ site.arguments.length ≤ 1 := by
  simp only [siteFaults, hBase, List.append_eq_nil_iff]
  refine and_congr (by simp) ?_
  split
  · rcases site.arguments with _ | ⟨first, _ | ⟨second, _ | ⟨third, rest⟩⟩⟩ <;> simp
  · simp

/-- Events need a type that lists them and no arguments. -/
theorem siteFaults_emits_iff (hBase : site.name.base = .emits) :
    siteFaults site = [] ↔ site.arguments = [] ∧
      ∃ type members, site.typeArgument = some type ∧ type.literalMembers = some members := by
  simp only [siteFaults, hBase]
  cases site.typeArgument with
  | none => simp
  | some type => simp [Option.ne_none_iff_exists', and_comm]

/-- The other families take one argument, of the shape that they need. -/
theorem siteFaults_single_iff
    (hBase : site.name.base = .expose ∨ site.name.base = .options ∨ site.name.base = .style) :
    siteFaults site = [] ↔ ∃ argument, site.arguments = [argument] ∧
      (site.name.base = .options → argument.shape = .object) ∧
      (site.name.base = .style → styleFaults site.name argument.shape = []) := by
  rcases hArguments : site.arguments with _ | ⟨argument, _ | ⟨other, rest⟩⟩ <;>
    rcases hBase with hBase | hBase | hBase <;> simp [siteFaults, hBase, hArguments]

/-- A sound call of the `vineProp` family binds a name. -/
theorem binding_of_siteFaults_nil (h : siteFaults site = []) (hBase : site.name.base = .prop) :
    ∃ name, site.binding = some name :=
  Option.ne_none_iff_exists'.mp ((siteFaults_prop_iff hBase).mp h).1

/-- An accepted call of these families has its one argument. -/
theorem arguments_of_siteFaults_nil (h : siteFaults site = [])
    (hBase : site.name.base = .expose ∨ site.name.base = .options ∨ site.name.base = .style) :
    ∃ argument, site.arguments = [argument] := by
  obtain ⟨argument, hArguments, -⟩ := (siteFaults_single_iff hBase).mp h
  exact ⟨argument, hArguments⟩

/-- An accepted style has a text. -/
theorem styleContent?_of_siteFaults_nil (h : siteFaults site = []) (hBase : site.name.base = .style)
    {argument : MacroArgument} (hArgument : site.arguments = [argument]) :
    ∃ content, styleContent? argument.shape = some content := by
  have hStyle : styleFaults site.name argument.shape = [] := by
    obtain ⟨only, hOnly, -, hStyle⟩ := (siteFaults_single_iff (Or.inr (Or.inr hBase))).mp h
    rw [hArgument, List.singleton_inj] at hOnly
    rw [hOnly]
    exact hStyle hBase
  cases hShape : argument.shape with
  | string content => exact ⟨_, rfl⟩
  | template content isInterpolated => exact ⟨_, rfl⟩
  | tagged tag content isInterpolated =>
      cases hTag : StyleLanguage.ofTag? tag with
      | none => simp [hShape, styleFaults, hTag] at hStyle
      | some language => exact ⟨(language, content), by simp [styleContent?, hTag]⟩
  | _ => simp [hShape, styleFaults] at hStyle

end

section

variable {program : List Tree} {apis : Reactivity} {source : String} {c : ComponentDeclaration}
  (hNoError : ∀ fault ∈ componentFaults program apis source c, fault.1.severity ≠ .error)

include hNoError

/-- A component without errors has a function. -/
theorem exists_function_of_no_error : ∃ f, c.function = some f := by
  cases hFunction : c.function with
  | none =>
      have hMem : (.notAFunction c.name, c.span) ∈ componentFaults program apis source c := by
        simp [componentFaults, hFunction]
      exact absurd rfl (hNoError _ hMem)
  | some f => exact ⟨f, rfl⟩

/-- Its parameters can be read as props. -/
theorem exists_formalProps_of_no_error {f : Tree} (hFunction : c.function = some f) :
    ∃ formal, formalProps f source = .ok formal := by
  cases hFormal : formalProps f source with
  | ok formal => exact ⟨formal, rfl⟩
  | error issue =>
      have hMem : issue.fault ∈ componentFaults program apis source c := by
        simp [componentFaults, hFunction, parameterFaults, hFormal]
      exact absurd (by cases issue <;> rfl) (hNoError _ hMem)

/-- All faults of sites are errors, so each site is without any. -/
theorem siteFaults_eq_nil_of_no_error {site : MacroSite} (hSite : site ∈ c.sites) :
    siteFaults site = [] := by
  obtain ⟨f, hFunction⟩ := exists_function_of_no_error hNoError
  apply List.eq_nil_iff_forall_not_mem.mpr
  intro fault hFault
  have hMem : (fault, site.span) ∈ componentFaults program apis source c := by
    simp only [componentFaults, hFunction, List.mem_append, List.mem_flatMap, List.mem_map]
    exact Or.inl (Or.inr ⟨site, hSite, fault, hFault, rfl⟩)
  exact hNoError _ hMem ((isMisuse_of_mem_siteFaults hFault).1)

/-- So is every repetition, and there is none. -/
theorem duplicatedSingletons_eq_nil_of_no_error : duplicatedSingletons c.sites = [] := by
  obtain ⟨f, hFunction⟩ := exists_function_of_no_error hNoError
  apply List.eq_nil_iff_forall_not_mem.mpr
  intro site hSite
  have hMem : (Finding.repeatedMacro site.name.base, site.span) ∈
      componentFaults program apis source c := by
    simp only [componentFaults, hFunction, List.mem_append, List.mem_map]
    exact Or.inl (Or.inl (Or.inr ⟨site, hSite, rfl⟩))
  exact hNoError _ hMem rfl

end

end ComponentAnalysis
