import ComponentAnalysis.Validation.Checks

/-! Validation of a component file in two passes. Faults of the top level end it; otherwise every
component is checked and its diagnostics are sorted by place. -/
namespace ComponentAnalysis

/-- What validation concludes. -/
structure ValidationOutcome where
  /-- The top level is sound, so the file can be analyzed. -/
  structuralOk : Bool := false
  /-- There is no error at all. -/
  passed : Bool := false
  deriving DecidableEq, Repr

/-- The log after the check of one component. -/
def validateComponent (program : List Tree) (apis : Reactivity) (log : DiagnosticLog)
    (component : ComponentDeclaration) : DiagnosticLog :=
  (log.reportAll (componentFaults program apis log.source component)).sortSince log.size

/-- Validate the top-level statements of a file and the components found in them. -/
def validate (program : List Tree) (components : List ComponentDeclaration) (apis : Reactivity)
    (log : DiagnosticLog) : ValidationOutcome × DiagnosticLog :=
  let afterRoot := log.reportAll (rootFaults program components)
  if afterRoot.hasErrorsSince log.size then ({}, afterRoot)
  else
    let final := components.foldl (validateComponent program apis) afterRoot
    (⟨true, !final.hasErrorsSince log.size⟩, final)

end ComponentAnalysis
