import ComponentAnalysis.Proofs.Tree.LastReturn
import ComponentAnalysis.Proofs.Validation.Faults

/-! Interpolations in the templates of a component. Validation looks for them in the template that
the analysis takes for the component, which is one of all that it returns. -/
namespace ComponentAnalysis

namespace Tree

/-- The analysis does not take the template of a return for that of the function: something is
around the template, or another return comes after it. -/
def Overlooks (f n : Tree) : Prop :=
  n.returnedMarkup? = none ∨
    ∃ m ∈ f.preorder, m.returnedMarkup?.isSome = true ∧ m.ComesAfter n

/-- A return is not overlooked if it is the last one that gives a template. -/
theorem not_overlooks_iff {f n : Tree} :
    ¬ f.Overlooks n ↔ n.returnedMarkup?.isSome = true ∧
      ∀ m ∈ f.preorder, m.returnedMarkup?.isSome = true → ¬ m.ComesAfter n := by
  simp [Overlooks, Option.isSome_iff_ne_none]

end Tree

/-- No check of a site reports an interpolated template. -/
theorem interpolatedMarkup_notMem_siteFaults (site : MacroSite) :
    Finding.interpolatedMarkup ∉ siteFaults site := by
  intro h
  simp only [siteFaults, styleFaults] at h
  split at h <;> grind

section

variable {program : List Tree} {apis : Reactivity} {source : String} {c : ComponentDeclaration}

/-- Interpolations are found in the template of a component only. -/
theorem interpolatedMarkup_mem_componentFaults_iff {span : Span} :
    (.interpolatedMarkup, span) ∈ componentFaults program apis source c ↔
      ∃ f markup, c.function = some f ∧ c.markup = some markup ∧ markup.isInterpolated = true ∧
        markup.span = span := by
  constructor
  · intro h
    cases hFunction : c.function with
    | none => simp [componentFaults, hFunction] at h
    | some f =>
        simp only [componentFaults, hFunction, List.mem_append, List.mem_map, List.mem_flatMap] at h
        obtain (((hMarkup | hParameter) | ⟨site, -, hSite⟩) |
          ⟨site, -, finding, hFinding, hSite⟩) | hReference := h
        · split at hMarkup
          · rename_i markup hSome
            split at hMarkup
            · rename_i hInterpolated
              cases List.mem_singleton.mp hMarkup
              exact ⟨f, markup, rfl, hSome, hInterpolated, rfl⟩
            · cases hMarkup
          · cases hMarkup
        · unfold parameterFaults at hParameter
          split at hParameter
          · rename_i issue _
            cases issue <;> simp [PropsIssue.fault] at hParameter
          · cases hParameter
          · simp at hParameter
        · cases hSite
        · cases hSite
          exact absurd hFinding (interpolatedMarkup_notMem_siteFaults site)
        · obtain ⟨site, -, r, -, hFault⟩ := reference_of_mem_hoistingFaults hReference
          cases hFault
  · rintro ⟨f, markup, hFunction, hMarkup, hInterpolated, rfl⟩
    simp [componentFaults, hFunction, hMarkup, hInterpolated]

end

/-- No check finds an error, apart from the one for interpolations in templates. -/
structure SoundApartFromTemplates (program : List Tree) (apis : Reactivity) (source : String) :
    Prop where
  root : rootFaults program (componentsOf program) = []
  components : ∀ c ∈ componentsOf program, ∀ fault ∈ componentFaults program apis source c,
    fault.1 ≠ .interpolatedMarkup → fault.1.severity ≠ .error

/-- A file in which the other checks find no error passes validation if and only if the analysis
overlooks every return of a template with interpolations. -/
theorem passed_iff_overlooks {program : List Tree} (hOrdered : ScriptOrdered program)
    (apis : Reactivity) (log : DiagnosticLog) :
    (validate program (componentsOf program) apis log).1.passed = true ↔
      SoundApartFromTemplates program apis log.source ∧
        ∀ c ∈ componentsOf program, ∀ f, c.function = some f → ∀ n ∈ f.preorder,
          ∀ place template, n.ReturnsTemplate place template → template.isInterpolated = true →
            f.Overlooks n := by
  rw [passed_iff]
  constructor
  · rintro ⟨hRoot, hNoError⟩
    refine ⟨⟨hRoot, fun c hc fault hFault _ => hNoError c hc fault hFault⟩, ?_⟩
    intro c hc f hFunction n hn place template hReturns hInterpolated
    by_contra hNot
    obtain ⟨hBare, hLast⟩ := Tree.not_overlooks_iff.mp hNot
    have hMarkup := (markup_eq_some_iff hOrdered hc hFunction).mpr
      ⟨n, hn, hReturns.returnedMarkup?_eq hBare, hLast⟩
    have hFault : (.interpolatedMarkup, place) ∈ componentFaults program apis log.source c :=
      interpolatedMarkup_mem_componentFaults_iff.mpr
        ⟨f, _, hFunction, hMarkup, hInterpolated, rfl⟩
    exact hNoError c hc _ hFault rfl
  · rintro ⟨hSound, hOverlooked⟩
    refine ⟨hSound.root, fun c hc fault hFault => ?_⟩
    by_cases hKind : fault.1 = .interpolatedMarkup
    · obtain ⟨finding, span⟩ := fault
      obtain rfl : finding = .interpolatedMarkup := hKind
      obtain ⟨f, markup, hFunction, hMarkup, hInterpolated, -⟩ :=
        interpolatedMarkup_mem_componentFaults_iff.mp hFault
      obtain ⟨n, hn, hReturned, hLast⟩ := (markup_eq_some_iff hOrdered hc hFunction).mp hMarkup
      obtain ⟨place, template, hReturns, rfl⟩ := Tree.exists_returnsTemplate hReturned
      have hBare : n.returnedMarkup?.isSome = true := by rw [hReturned, Option.isSome_some]
      exact absurd (hOverlooked c hc f hFunction n hn place template hReturns hInterpolated)
        (Tree.not_overlooks_iff.mpr ⟨hBare, hLast⟩)
    · exact hSound.components c hc fault hFault hKind

/-- The first return of `guardedReturns`, of a template with an interpolation. -/
def guardedReturn : Tree :=
  .node .returnStatement ⟨24, 48⟩
    [.node .taggedTemplate ⟨31, 48⟩
      [.node (.reference "vine") ⟨31, 35⟩ [],
        .node .template ⟨35, 48⟩
          [.node (.templateText (some "<a>")) ⟨36, 39⟩ [],
            .node (.templateText (some "</a>")) ⟨43, 47⟩ [],
            .node (.reference "y") ⟨41, 42⟩ []]]]

/-- A function with two returns of a template, the first of which is in a condition. -/
def guardedReturns : Tree :=
  .node (.function .declaration) ⟨0, 70⟩
    [.node (.binding "A") ⟨9, 10⟩ [],
      .node .parameters ⟨10, 12⟩ [],
      .node .functionBody ⟨13, 70⟩
        [.node .ifStatement ⟨17, 48⟩ [.node (.reference "x") ⟨21, 22⟩ [], guardedReturn],
          .node .returnStatement ⟨51, 68⟩
            [.node .taggedTemplate ⟨58, 68⟩
              [.node (.reference "vine") ⟨58, 62⟩ [],
                .node .template ⟨62, 68⟩
                  [.node (.templateText (some "<b/>")) ⟨63, 67⟩ []]]]]]

theorem guardedReturn_mem : guardedReturn ∈ guardedReturns.preorder := by
  have hReturns : guardedReturns.preorder[6]? = some guardedReturn := rfl
  exact List.mem_of_getElem? hReturns

def guardedLog : DiagnosticLog where
  fileId := "guarded"
  source := "function A() \x7b\n  if (x) return vine`<a>$\x7by\x7d</a>`\n  return vine`<b/>`\n\x7d\n"

/-- A file that passes with an interpolation in a guarded return. -/
theorem passed_iff_overlooks_guarded :
    ScriptOrdered [guardedReturns] ∧
      (validate [guardedReturns] (componentsOf [guardedReturns]) {} guardedLog).1.passed = true ∧
      guardedReturn ∈ guardedReturns.preorder ∧ guardedReturns.Overlooks guardedReturn := by
  have hOrdered : ScriptOrdered [guardedReturns] := by decide
  have hPassed : (validate [guardedReturns] (componentsOf [guardedReturns]) {}
      guardedLog).1.passed = true := passed_iff.mpr ⟨by decide, by decide +kernel⟩
  exact ⟨hOrdered, hPassed, guardedReturn_mem,
    ((passed_iff_overlooks hOrdered {} guardedLog).mp hPassed).2 (.ofStatement 0 guardedReturns)
      (mem_componentsOf.mpr ⟨0, guardedReturns, rfl, by decide, rfl⟩) guardedReturns rfl
      guardedReturn guardedReturn_mem _ _ (.intro rfl rfl) rfl⟩

/-- The file passes validation, and its component returns a template with an interpolation. -/
theorem not_uninterpolated_guarded :
    ¬ ((validate [guardedReturns] (componentsOf [guardedReturns]) {} guardedLog).1.passed = true →
      ∀ c ∈ componentsOf [guardedReturns], ∀ f, c.function = some f → ∀ n ∈ f.preorder,
        ∀ markup, n.returnedMarkup? = some markup → markup.isInterpolated = false) := by
  intro h
  have hNone := h (passed_iff.mpr ⟨by decide, by decide +kernel⟩) (.ofStatement 0 guardedReturns)
    (mem_componentsOf.mpr ⟨0, guardedReturns, rfl, by decide, rfl⟩) guardedReturns rfl
    guardedReturn guardedReturn_mem ⟨⟨31, 48⟩, ⟨36, 47⟩, true⟩ rfl
  cases hNone

end ComponentAnalysis
