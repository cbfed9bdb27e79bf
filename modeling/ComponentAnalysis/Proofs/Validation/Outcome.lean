import ComponentAnalysis.Validation.Basic
import ComponentAnalysis.Proofs.Component.Declaration

/-! What validation adds to a log and what it concludes. The diagnostics of a component depend only
on the file id and the source of the log, so a run over all components appends one segment for each
of them. -/
namespace ComponentAnalysis

namespace DiagnosticLog

/-- The diagnostic that reports a fault in a log. -/
def diagnostic (log : DiagnosticLog) (fault : Located) : Diagnostic :=
  ⟨log.fileId, fault.1.severity, fault.1.kind, fault.1.message, locate log.source fault.2⟩

/-- A diagnostic is an error if its fault is. -/
theorem isError_diagnostic (log : DiagnosticLog) (fault : Located) :
    (log.diagnostic fault).isError = decide (fault.1.severity = .error) := rfl

/-- The log with further diagnostics at its end. -/
def append (log : DiagnosticLog) (added : List Diagnostic) : DiagnosticLog :=
  { log with items := log.items ++ added }

variable (log : DiagnosticLog) (added more : List Diagnostic)

@[simp] theorem items_append : (log.append added).items = log.items ++ added := rfl

@[simp] theorem source_append : (log.append added).source = log.source := rfl

@[simp] theorem diagnostic_append : (log.append added).diagnostic = log.diagnostic := rfl

@[simp] theorem size_append : (log.append added).size = log.size + added.length := by
  simp [size]

@[simp] theorem append_nil : log.append [] = log := by
  simp [append]

@[simp] theorem append_append : (log.append added).append more = log.append (added ++ more) := by
  simp [append]

/-- Faults are reported in order, behind what is in the log. -/
theorem reportAll_eq (faults : List Located) :
    log.reportAll faults = log.append (faults.map log.diagnostic) := by
  induction faults generalizing log with
  | nil => exact log.append_nil.symm
  | cons fault faults ih =>
      have hStep : log.report fault = log.append [log.diagnostic fault] := rfl
      have hTail : log.reportAll (fault :: faults) = (log.report fault).reportAll faults := rfl
      rw [hTail, ih, hStep, append_append, diagnostic_append]
      rfl

/-- A mark at the end of a log asks for what is added later. -/
theorem hasErrorsSince_append :
    (log.append added).hasErrorsSince log.size = added.any Diagnostic.isError := by
  rw [hasErrorsSince, items_append, size, List.drop_left]

/-- Sorting after a mark sorts what was added at the mark. -/
theorem sortSince_append :
    (log.append added).sortSince log.size =
      log.append (added.mergeSort fun a b => a.location.start ≤ b.location.start) := by
  simp only [sortSince, items_append, size, List.take_left, List.drop_left]
  rfl

end DiagnosticLog

/-- Every fault of a call on its own is an error in the use of a macro. -/
theorem isMisuse_of_mem_siteFaults {site : MacroSite} {fault : Finding}
    (h : fault ∈ siteFaults site) : fault.severity = .error ∧ fault.kind = .macroUsage := by
  cases fault with
  | malformedScript | invalidRootStatement | macroOutsideComponent | ignoredPropMacros _
  | forwardReference _ =>
      simp only [siteFaults, styleFaults] at h
      split at h <;> grind
  | _ => exact ⟨rfl, rfl⟩

section

variable (program : List Tree) (apis : Reactivity)

/-- The diagnostics of one component in the order in which they are reported. -/
def componentDiagnostics (log : DiagnosticLog) (c : ComponentDeclaration) : List Diagnostic :=
  ((componentFaults program apis log.source c).map log.diagnostic).mergeSort
    fun a b => a.location.start ≤ b.location.start

/-- Sorting loses none of the diagnostics of a component. -/
theorem componentDiagnostics_perm (log : DiagnosticLog) (c : ComponentDeclaration) :
    (componentDiagnostics program apis log c).Perm
      ((componentFaults program apis log.source c).map log.diagnostic) :=
  List.mergeSort_perm _ _

/-- A component is checked by itself: the diagnostics before it are left as they are. -/
theorem validateComponent_eq (log : DiagnosticLog) (c : ComponentDeclaration) :
    validateComponent program apis log c =
      log.append (componentDiagnostics program apis log c) := by
  rw [validateComponent, DiagnosticLog.reportAll_eq, DiagnosticLog.sortSince_append]
  rfl

/-- Checking one component after the other appends their diagnostics in order. -/
theorem foldl_validateComponent (log : DiagnosticLog) (components : List ComponentDeclaration) :
    components.foldl (validateComponent program apis) log =
      log.append (components.flatMap (componentDiagnostics program apis log)) := by
  induction components generalizing log with
  | nil => exact log.append_nil.symm
  | cons c components ih =>
      have hSame : ∀ added, componentDiagnostics program apis (log.append added) =
          componentDiagnostics program apis log := fun _ => rfl
      rw [List.foldl_cons, ih, validateComponent_eq, hSame, DiagnosticLog.append_append,
        List.flatMap_cons]

variable {program apis} {components : List ComponentDeclaration} {log : DiagnosticLog}

/-- All faults at the top of a file are errors. -/
theorem severity_of_mem_rootFaults {fault : Located} (h : fault ∈ rootFaults program components) :
    fault.1.severity = .error := by
  simp only [rootFaults, List.mem_flatMap] at h
  obtain ⟨⟨t, i⟩, -, h⟩ := h
  split at h
  · rw [List.mem_singleton.mp h]
    rfl
  · split at h
    · cases h
    · obtain ⟨call, -, rfl⟩ := List.mem_map.mp h
      rfl

/-- Some diagnostic is an error just if a fault is. -/
theorem any_isError_diagnostics (faults : List Located) :
    (faults.map log.diagnostic).any Diagnostic.isError = true ↔
      ∃ fault ∈ faults, fault.1.severity = .error := by
  rw [List.any_map, List.any_eq_true]
  simp only [Function.comp_apply, DiagnosticLog.isError_diagnostic, decide_eq_true_eq]

/-- Every fault of the top level is an error, so any of them ends validation. -/
theorem hasErrors_root_iff (log : DiagnosticLog) :
    (log.reportAll (rootFaults program components)).hasErrorsSince log.size = true ↔
      rootFaults program components ≠ [] := by
  rw [DiagnosticLog.reportAll_eq, DiagnosticLog.hasErrorsSince_append, any_isError_diagnostics]
  constructor
  · rintro ⟨fault, hFault, -⟩ hNil
    rw [hNil] at hFault
    cases hFault
  · intro hNe
    obtain ⟨fault, hFault⟩ := List.exists_mem_of_ne_nil _ hNe
    exact ⟨fault, hFault, severity_of_mem_rootFaults hFault⟩

/-- Without a fault of the top level, all components are checked. -/
theorem validate_of_rootFaults_nil (h : rootFaults program components = []) :
    validate program components apis log =
      (let added := components.flatMap (componentDiagnostics program apis log)
      (⟨true, !added.any Diagnostic.isError⟩, log.append added)) := by
  have hRoot : log.reportAll (rootFaults program components) = log := by
    rw [h]
    rfl
  have hErrors := mt (hasErrors_root_iff log).mp (not_not_intro h)
  rw [hRoot] at hErrors
  simp only [validate, hRoot, if_neg hErrors, foldl_validateComponent,
    DiagnosticLog.hasErrorsSince_append]

/-- The structure of a file is sound if nothing is wrong at its top. -/
theorem structuralOk_iff :
    (validate program components apis log).1.structuralOk = true ↔
      rootFaults program components = [] := by
  constructor
  · intro hOk
    by_contra hNe
    simp [validate, (hasErrors_root_iff log).mpr hNe] at hOk
  · intro h
    rw [validate_of_rootFaults_nil h]

/-- A structurally sound file gets the diagnostics of its components, one after the other. -/
theorem items_of_structuralOk (h : (validate program components apis log).1.structuralOk = true) :
    (validate program components apis log).2.items =
      log.items ++ components.flatMap (componentDiagnostics program apis log) := by
  rw [validate_of_rootFaults_nil (structuralOk_iff.mp h)]
  rfl

/-- Each diagnostic of a component reports one of its faults. -/
theorem mem_componentDiagnostics {c : ComponentDeclaration} {d : Diagnostic} :
    d ∈ componentDiagnostics program apis log c ↔
      ∃ fault ∈ componentFaults program apis log.source c, log.diagnostic fault = d := by
  rw [(componentDiagnostics_perm program apis log c).mem_iff, List.mem_map]

/-- A file passes exactly when its top level has no fault and no component has an error. -/
theorem passed_iff :
    (validate program components apis log).1.passed = true ↔
      rootFaults program components = [] ∧
        ∀ c ∈ components, ∀ fault ∈ componentFaults program apis log.source c,
          fault.1.severity ≠ .error := by
  by_cases h : rootFaults program components = []
  · rw [validate_of_rootFaults_nil h]
    simp only [Bool.not_eq_true', List.any_eq_false, List.mem_flatMap, h, true_and]
    constructor
    · intro hNone c hc fault hFault hError
      exact hNone (log.diagnostic fault) ⟨c, hc, mem_componentDiagnostics.mpr ⟨fault, hFault, rfl⟩⟩
        (decide_eq_true hError)
    · rintro hNone d ⟨c, hc, hd⟩ hError
      obtain ⟨fault, hFault, rfl⟩ := mem_componentDiagnostics.mp hd
      exact hNone c hc fault hFault (of_decide_eq_true hError)
  · simp [validate, (hasErrors_root_iff log).mpr h, h]

end

end ComponentAnalysis
