import ComponentAnalysis.Component.Analysis
import ComponentAnalysis.Script.Program

/-! Compiling files one after the other, with hooks between the stages of a compilation. The parser
and the compiler of templates are given. -/
namespace ComponentAnalysis

/-- What a compiler knows: its options, the parser and the compiler of templates that it works with,
the last analysis of each file and all diagnostics in the order in which they were reported. -/
structure Compiler (Ast : Type) where
  options : CompilerOptions := {}
  parser : Parser := Script.parser
  templates : TemplateCompiler Ast := .silent Ast
  files : Table (FileAnalysis Ast) := .empty
  diagnostics : List Diagnostic := []

/-- The points of a compilation at which hooks see the file. -/
inductive Stage where
  | bound
  | validated
  | analyzed
  deriving DecidableEq, Repr

/-- What happens at the points of a compilation. A hook may change the file and its own state. -/
structure Hooks (Ast State : Type) where
  onOptions : CompilerOptions → State → State := fun _ state => state
  onFile : Stage → FileAnalysis Ast → State → FileAnalysis Ast × State :=
    fun _ file state => (file, state)

variable {Ast State : Type}

/-- The file with the outcome and the diagnostics of its validation. -/
def FileAnalysis.withLog (file : FileAnalysis Ast) (outcome : ValidationOutcome)
    (log : DiagnosticLog) : FileAnalysis Ast :=
  { file with outcome, diagnostics := log.items }

/-- Report the errors of a parser, in order, or else that it gave up without any. -/
def DiagnosticLog.reportErrors (log : DiagnosticLog) (errors : List SyntaxError) : DiagnosticLog :=
  let log := errors.foldl (fun log e => log.add .error .structural e.message e.span) log
  if log.isEmpty then log.report (.malformedScript, {}) else log

namespace Compiler

/-- Analyze one file and call the hooks on the way. A text that is no program ends the analysis with
the errors of the parser; the outcome stays as it was. -/
def analyzeFile (compiler : Compiler Ast) (hooks : Hooks Ast State) (state : State)
    (code fileId : String) : FileAnalysis Ast × State :=
  let state := hooks.onOptions compiler.options state
  let (file, state) := hooks.onFile .bound { fileId, source := code } state
  let log : DiagnosticLog := { fileId, source := code }
  let result := compiler.parser code
  match result.program? with
  | none =>
    let log := log.reportErrors result.errors
    hooks.onFile .validated { file with diagnostics := log.items } state
  | some program =>
    let imports := Imports.ofProgram program
    let components := componentsOf program
    let (outcome, log) := validate program components imports.reactivity log
    let (file, state) := hooks.onFile .validated (file.withLog outcome log) state
    if outcome.structuralOk then
      let input : AnalysisInput Ast :=
        { source := code, program, imports, templates := compiler.templates
          options := compiler.options }
      hooks.onFile .analyzed (input.analyze file components) state
    else (file, state)

/-- Keep the analysis of a file, replacing an earlier one, and report its diagnostics. -/
def store (compiler : Compiler Ast) (file : FileAnalysis Ast) : Compiler Ast :=
  { compiler with
    files := compiler.files.insert file.fileId file
    diagnostics := compiler.diagnostics ++ file.diagnostics }

def compile (compiler : Compiler Ast) (hooks : Hooks Ast State) (state : State)
    (code fileId : String) : Compiler Ast × FileAnalysis Ast × State :=
  let (file, state) := compiler.analyzeFile hooks state code fileId
  (compiler.store file, file, state)

/-- Take over the results of another compiler. Its files replace those of the same id. -/
def merge (compiler other : Compiler Ast) : Compiler Ast :=
  { compiler with
    files := compiler.files.insertAll other.files.entries
    diagnostics := compiler.diagnostics ++ other.diagnostics }

def file? (compiler : Compiler Ast) (fileId : String) : Option (FileAnalysis Ast) :=
  compiler.files.find? fileId

def fileIds (compiler : Compiler Ast) : List String :=
  compiler.files.keys.mergeSort fun a b => a ≤ b

def errorCount (compiler : Compiler Ast) : Nat := compiler.diagnostics.countP Diagnostic.isError

end Compiler

end ComponentAnalysis
