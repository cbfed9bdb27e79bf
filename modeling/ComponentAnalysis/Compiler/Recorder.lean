import ComponentAnalysis.Compiler.Basic

/-! Hooks that record what they see and then make given changes to the file. -/
namespace ComponentAnalysis

inductive FileEdit where
  | setFileId (fileId : String)
  | addStyle (scopeId : String) (style : StyleDefinition)
  | addImport (localName source : String)
  | addDiagnostic (severity : Severity) (kind : DiagnosticKind) (message : String)
  | clearDiagnostics
  | setPassed (value : Bool)
  | addComponent (name scopeId : String) (template : Option String) (expressions : List String)
  | reverseComponents
  deriving Repr

variable {Ast : Type}

/-- A component with nothing but a name, a scope, a template and style variables. -/
def Component.bare (Ast : Type) (name scopeId : String) (template : Option String)
    (expressions : List String) : Component Ast :=
  { name, scopeId, template
    styleVariables := .ofList (expressions.map fun e => (e, Digest.styleVariable name e)) }

namespace FileEdit

/-- Make a change. A diagnostic is added without a place, with a mark in front of its message. -/
def apply (file : FileAnalysis Ast) : FileEdit → FileAnalysis Ast
  | setFileId fileId => { file with fileId }
  | addStyle scopeId style => { file with styles := file.styles.insert scopeId style }
  | addImport localName source =>
    { file with
      imports := { file.imports with records := file.imports.records.insert localName { source } } }
  | addDiagnostic severity kind message =>
    { file with
      diagnostics := file.diagnostics ++ [⟨file.fileId, severity, kind, "hook:" ++ message, {}⟩] }
  | clearDiagnostics => { file with diagnostics := [] }
  | setPassed passed => { file with outcome := { file.outcome with passed } }
  | addComponent name scopeId template expressions =>
    { file with components := file.components ++ [.bare Ast name scopeId template expressions] }
  | reverseComponents => { file with components := file.components.reverse }

end FileEdit

/-- A file as a hook sees it. -/
structure FileSnapshot where
  fileId : String
  components : Nat
  styles : Nat
  imports : Nat
  diagnostics : Nat
  passed : Bool
  isValid : Bool
  deriving DecidableEq, Repr

def FileSnapshot.ofFile (file : FileAnalysis Ast) : FileSnapshot where
  fileId := file.fileId
  components := file.components.length
  styles := file.styles.size
  imports := file.imports.records.size
  diagnostics := file.diagnostics.length
  passed := file.outcome.passed
  isValid := file.isValid

/-- What a hook has seen. -/
inductive CompilerEvent where
  | options (options : CompilerOptions)
  | file (stage : Stage) (snapshot : FileSnapshot)
  deriving Repr

/-- Hooks that record every event and then make the changes given for its stage. -/
def recorder (edits : Stage → List FileEdit) : Hooks Ast (List CompilerEvent) where
  onOptions options events := events ++ [.options options]
  onFile stage file events :=
    ((edits stage).foldl FileEdit.apply file, events ++ [.file stage (.ofFile file)])

end ComponentAnalysis
