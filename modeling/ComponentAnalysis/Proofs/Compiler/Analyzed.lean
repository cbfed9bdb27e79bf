import ComponentAnalysis.Proofs.Compiler.Coherence

/-! Where the components and the styles of a compiled file come from. A script that is turned away
leaves none; those of any other are what the analysis of its components adds to an empty file. -/
namespace ComponentAnalysis

namespace Compiler

variable {Ast State : Type}

/-- What the compiler gives to the analysis of a script. -/
def analysisInput (compiler : Compiler Ast) (code : String) (program : List Tree) :
    AnalysisInput Ast where
  source := code
  program
  imports := Imports.ofProgram program
  templates := compiler.templates
  options := compiler.options

/-- What validation concludes about a script, with the diagnostics of the file. -/
def validated (code fileId : String) (program : List Tree) : ValidationOutcome × DiagnosticLog :=
  validate program (componentsOf program) (Imports.ofProgram program).reactivity
    { fileId, source := code }

/-- The file of a script before its components are analyzed. -/
def checkedFile (code fileId : String) (program : List Tree) : FileAnalysis Ast :=
  FileAnalysis.withLog { fileId, source := code } (validated code fileId program).1
    (validated code fileId program).2

/-- A file as its compilation leaves it. -/
inductive Leaves (compiler : Compiler Ast) (code fileId : String) : FileAnalysis Ast → Prop where
  /-- The script is malformed or has faults at its top level. -/
  | rejected {file : FileAnalysis Ast} (hComponents : file.components = [])
      (hStyles : file.styles = .empty) (hInvalid : file.isValid = false) :
      Leaves compiler code fileId file
  | analyzed {program : List Tree} (hParse : (compiler.parser code).program? = some program)
      (hRoot : rootFaults program (componentsOf program) = []) :
      Leaves compiler code fileId
        ((compiler.analysisInput code program).analyze (checkedFile code fileId program)
          (componentsOf program))

variable (compiler : Compiler Ast) (code fileId : String) {hooks : Hooks Ast State}

/-- With hooks that only look on, a compilation leaves a file without components or an analyzed
one. -/
theorem leaves_analyzeFile (hObserves : hooks.Observes) (state : State) :
    Leaves compiler code fileId (compiler.analyzeFile hooks state code fileId).1 := by
  simp only [analyzeFile, hObserves.onFile_eq]
  split
  · exact Leaves.rejected rfl rfl rfl
  · rename_i program hParse
    by_cases hRoot : rootFaults program (componentsOf program) = []
    · have hAnalyzed := @Leaves.analyzed _ compiler code fileId program hParse hRoot
      rw [checkedFile, validated, validate_of_rootFaults_nil hRoot] at hAnalyzed
      rw [validate_of_rootFaults_nil hRoot]
      exact hAnalyzed
    · rw [validate_of_rootFaults_ne_nil hRoot]
      exact Leaves.rejected rfl rfl rfl

variable {code fileId}

/-- The components of a valid file passed validation. -/
theorem passed_of_isValid {program : List Tree}
    (hValid : ((compiler.analysisInput code program).analyze (checkedFile code fileId program)
      (componentsOf program)).isValid = true) :
    (validated code fileId program).1.passed = true := by
  obtain ⟨_, _, _, hFrame⟩ := (compiler.analysisInput code program).analyze_frame
    (checkedFile code fileId program) (componentsOf program)
  rw [hFrame, FileAnalysis.isValid, Bool.and_eq_true] at hValid
  exact hValid.1

end Compiler

/-- A new compiler that parses by the grammar of scripts. -/
def scriptCompiler : Compiler Unit := { parser := Script.parser }

/-- A file as this compiler leaves it when its hooks only watch. -/
def watched (code : String) : FileAnalysis Unit :=
  (scriptCompiler.analyzeFile watcher [] code "f").1

end ComponentAnalysis
