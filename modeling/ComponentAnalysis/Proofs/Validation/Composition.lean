import ComponentAnalysis.Proofs.Validation.Faults

/-! Validation goes statement by statement: what it finds in a file is what it finds in the parts of
the file, one after the other. -/
namespace ComponentAnalysis

namespace Tree

/-- The faults that a statement has at the top level of a file. -/
def rootFaults (t : Tree) : List Located :=
  if !t.isRootStatement then [(.invalidRootStatement, t.span)]
  else if t.isComponent then []
  else t.macroCalls.map fun call => (.macroOutsideComponent, call)

/-- The diagnostics of the component that a statement declares, if it declares one. -/
def diagnostics (log : DiagnosticLog) (t : Tree) : List Diagnostic :=
  if t.isComponent then componentDiagnostics [t] {} log (.ofStatement 0 t) else []

end Tree

/-- What validation appends to a log. -/
def appended (program : List Tree) (apis : Reactivity) (log : DiagnosticLog) : List Diagnostic :=
  (validate program (componentsOf program) apis log).2.items.drop log.size

def structuralPart (diagnostics : List Diagnostic) : List Diagnostic :=
  diagnostics.filter fun d => d.kind = .structural

section

variable (program : List Tree) (apis : Reactivity) (log : DiagnosticLog)

/-- A statement is excused from the check of the top level exactly if it declares a component. -/
theorem any_position_componentsOf {i : Nat} {t : Tree} (hAt : program[i]? = some t) :
    ((componentsOf program).any fun c => c.position = i) = t.isComponent := by
  rw [Bool.eq_iff_iff, List.any_eq_true]
  constructor
  · rintro ⟨c, hc, hPosition⟩
    obtain ⟨j, u, hAt', hComponent, rfl⟩ := mem_componentsOf.mp hc
    obtain rfl : j = i := of_decide_eq_true hPosition
    rw [hAt] at hAt'
    rw [Option.some.inj hAt']
    exact hComponent
  · intro hComponent
    exact ⟨_, mem_componentsOf.mpr ⟨i, t, hAt, hComponent, rfl⟩, decide_eq_true rfl⟩

theorem rootFaults_eq_flatMap :
    rootFaults program (componentsOf program) = program.flatMap Tree.rootFaults := by
  symm
  apply flatMap_zipIdx
  intro i t hAt
  simp only [Tree.rootFaults, any_position_componentsOf program hAt]

theorem componentDiagnostics_eq_flatMap :
    (componentsOf program).flatMap (componentDiagnostics program apis log) =
      program.flatMap (Tree.diagnostics log) := by
  symm
  rw [componentsOf, List.filterMap_eq_flatMap_toList, List.flatMap_assoc]
  apply flatMap_zipIdx
  intro i t _
  cases hComponent : t.isComponent with
  | false => simp [Tree.diagnostics, hComponent]
  | true =>
      have hFaults := componentFaults_ofStatement program apis log.source i t
      simp [Tree.diagnostics, hComponent, componentDiagnostics, hFaults]

variable {program apis log}

/-- If nothing is wrong at the top, what is appended are the diagnostics of each statement. -/
theorem appended_of_rootFaults_nil (h : rootFaults program (componentsOf program) = []) :
    appended program apis log = program.flatMap (Tree.diagnostics log) := by
  rw [appended, validate_of_rootFaults_nil h, componentDiagnostics_eq_flatMap]
  exact List.drop_left

/-- Otherwise the components are not checked at all. -/
theorem validate_of_rootFaults_ne_nil (h : rootFaults program (componentsOf program) ≠ []) :
    validate program (componentsOf program) apis log =
      ({}, log.append ((rootFaults program (componentsOf program)).map log.diagnostic)) := by
  have hErrors := (hasErrors_root_iff log).mpr h
  rw [DiagnosticLog.reportAll_eq] at hErrors
  simp only [validate, DiagnosticLog.reportAll_eq, hErrors, if_true]

/-- Then what is appended are the faults at the top, statement by statement. -/
theorem appended_of_rootFaults_ne_nil (h : rootFaults program (componentsOf program) ≠ []) :
    appended program apis log = (program.flatMap Tree.rootFaults).map log.diagnostic := by
  rw [appended, validate_of_rootFaults_ne_nil h, rootFaults_eq_flatMap]
  exact List.drop_left

/-- Faults at the top are structural. -/
theorem kind_of_mem_rootFaults {fault : Located} {t : Tree} (h : fault ∈ t.rootFaults) :
    fault.1.kind = .structural := by
  unfold Tree.rootFaults at h
  split at h
  · rw [List.mem_singleton.mp h]
    rfl
  · split at h
    · cases h
    · obtain ⟨call, -, rfl⟩ := List.mem_map.mp h
      rfl

/-- Those of components are not. -/
theorem structuralPart_diagnostics (t : Tree) : structuralPart (t.diagnostics log) = [] := by
  apply List.filter_eq_nil_iff.mpr
  intro d hd hKind
  unfold Tree.diagnostics at hd
  split at hd
  · obtain ⟨fault, hFault, rfl⟩ := mem_componentDiagnostics.mp hd
    exact (faultOf_of_mem hFault).kind_ne_structural (of_decide_eq_true hKind)
  · cases hd

/-- The structural diagnostics of a file are those of its statements. -/
theorem structuralPart_appended :
    structuralPart (appended program apis log) =
      (program.flatMap Tree.rootFaults).map log.diagnostic := by
  by_cases h : rootFaults program (componentsOf program) = []
  · have hNone : ∀ t ∈ program, structuralPart (t.diagnostics log) = [] :=
      fun t _ => structuralPart_diagnostics t
    rw [appended_of_rootFaults_nil h, structuralPart, List.filter_flatMap,
      ← rootFaults_eq_flatMap, h]
    exact List.flatMap_eq_nil_iff.mpr hNone
  · rw [appended_of_rootFaults_ne_nil h]
    apply List.filter_eq_self.mpr
    intro d hd
    obtain ⟨fault, hFault, rfl⟩ := List.mem_map.mp hd
    obtain ⟨t, -, hFault⟩ := List.mem_flatMap.mp hFault
    exact decide_eq_true (kind_of_mem_rootFaults hFault)

end

/-- Validation is compositional: the structural diagnostics of two lists of statements are those of
the first and those of the second, and if neither has any, validation appends for both together what
it appends for each, and both together pass exactly if each of them does. What is imported may
differ between the three runs. -/
theorem validate_append (first second : List Tree) (apis apis₁ apis₂ : Reactivity)
    (log : DiagnosticLog) :
    structuralPart (appended (first ++ second) apis log) =
        structuralPart (appended first apis₁ log) ++ structuralPart (appended second apis₂ log) ∧
      ((validate first (componentsOf first) apis₁ log).1.structuralOk = true →
        (validate second (componentsOf second) apis₂ log).1.structuralOk = true →
        appended (first ++ second) apis log =
            appended first apis₁ log ++ appended second apis₂ log ∧
          (validate (first ++ second) (componentsOf (first ++ second)) apis log).1 =
            ⟨true, (validate first (componentsOf first) apis₁ log).1.passed &&
              (validate second (componentsOf second) apis₂ log).1.passed⟩) := by
  constructor
  · simp only [structuralPart_appended, List.flatMap_append, List.map_append]
  · intro hFirst hSecond
    rw [structuralOk_iff] at hFirst hSecond
    have hBoth : rootFaults (first ++ second) (componentsOf (first ++ second)) = [] := by
      rw [rootFaults_eq_flatMap, List.flatMap_append, ← rootFaults_eq_flatMap,
        ← rootFaults_eq_flatMap, hFirst, hSecond]
      rfl
    constructor
    · rw [appended_of_rootFaults_nil hBoth, appended_of_rootFaults_nil hFirst,
        appended_of_rootFaults_nil hSecond, List.flatMap_append]
    · simp only [validate_of_rootFaults_nil hBoth, validate_of_rootFaults_nil hFirst,
        validate_of_rootFaults_nil hSecond, componentDiagnostics_eq_flatMap, List.flatMap_append,
        List.any_append, Bool.not_or]

/-- A component behind another one, with a prop that nothing is initialized by. -/
def barePropStatement : Tree :=
  .node (.function .declaration) ⟨97, 146⟩
    [.node (.binding "B") ⟨106, 107⟩ [],
      .node .parameters ⟨107, 109⟩ [],
      .node .functionBody ⟨110, 146⟩
        [.node .expressionStatement ⟨114, 124⟩
          [.node .call ⟨114, 124⟩ [.node (.reference "vineProp") ⟨114, 122⟩ []]],
          .node .returnStatement ⟨127, 144⟩
            [.node .taggedTemplate ⟨134, 144⟩
              [.node (.reference "vine") ⟨134, 138⟩ [],
                .node .template ⟨138, 144⟩ [.node (.templateText (some "<b/>")) ⟨139, 143⟩ []]]]]]

def barePropLog : DiagnosticLog where
  fileId := "bare"
  source := latePropLog.source ++
    "function B() \x7b\n  vineProp()\n  return vine`<b/>`\n\x7d\n"

/-- Two files with a fault each, and both together. -/
theorem validate_append_bareProp :
    (validate [latePropStatement] (componentsOf [latePropStatement]) {}
        barePropLog).1.structuralOk = true ∧
      (validate [barePropStatement] (componentsOf [barePropStatement]) {}
        barePropLog).1.structuralOk = true ∧
      appended [latePropStatement, barePropStatement] {} barePropLog =
        appended [latePropStatement] {} barePropLog ++
          appended [barePropStatement] {} barePropLog ∧
      (validate [latePropStatement, barePropStatement]
          (componentsOf [latePropStatement, barePropStatement]) {} barePropLog).1 =
        ⟨true, (validate [latePropStatement] (componentsOf [latePropStatement]) {}
            barePropLog).1.passed &&
          (validate [barePropStatement] (componentsOf [barePropStatement]) {}
            barePropLog).1.passed⟩ :=
  have hFirst : (validate [latePropStatement] (componentsOf [latePropStatement]) {}
      barePropLog).1.structuralOk = true := structuralOk_iff.mpr (by decide +kernel)
  have hSecond : (validate [barePropStatement] (componentsOf [barePropStatement]) {}
      barePropLog).1.structuralOk = true := structuralOk_iff.mpr (by decide +kernel)
  ⟨hFirst, hSecond,
    (validate_append [latePropStatement] [barePropStatement] {} {} {} barePropLog).2 hFirst hSecond⟩

end ComponentAnalysis
