import ComponentAnalysis.Source.Lines

/-! Errors and warnings at places in a file. -/
namespace ComponentAnalysis

inductive Severity where
  | error
  | warning
  deriving DecidableEq, Repr

/-- What a diagnostic is about. -/
inductive DiagnosticKind where
  /-- Malformed scripts and statements that may not stand at the top level. -/
  | structural
  /-- Misused macros and malformed component functions. -/
  | macroUsage
  /-- References that would break once a macro argument is moved. -/
  | hoisting
  deriving DecidableEq, Repr

structure Diagnostic where
  fileId : String
  severity : Severity
  kind : DiagnosticKind
  message : String
  location : Location
  deriving DecidableEq, Repr

namespace Severity

def toString : Severity → String
  | error => "error"
  | warning => "warning"

end Severity

namespace DiagnosticKind

def toString : DiagnosticKind → String
  | structural => "structural"
  | macroUsage => "macro-usage"
  | hoisting => "hoisting"

end DiagnosticKind

namespace Diagnostic

def isError (d : Diagnostic) : Bool := d.severity = .error

/-- A diagnostic on one line, with the file and the place. -/
def toLine (d : Diagnostic) : String :=
  "[vine " ++ d.severity.toString ++ "] " ++ d.fileId ++ ":" ++ toString d.location.line ++ ":" ++
    toString d.location.column ++ " " ++ d.message

end Diagnostic

/-- The diagnostics collected for one source. -/
structure DiagnosticLog where
  fileId : String
  source : String
  items : List Diagnostic := []
  deriving DecidableEq, Repr

namespace DiagnosticLog

def add (log : DiagnosticLog) (severity : Severity) (kind : DiagnosticKind) (message : String)
    (span : Span) : DiagnosticLog :=
  { log with
    items := log.items ++ [⟨log.fileId, severity, kind, message, locate log.source span⟩] }

def size (log : DiagnosticLog) : Nat := log.items.length

def isEmpty (log : DiagnosticLog) : Bool := log.items.isEmpty

def errorCount (log : DiagnosticLog) : Nat := log.items.countP Diagnostic.isError

/-- Whether there is an error after the first `mark` diagnostics. -/
def hasErrorsSince (log : DiagnosticLog) (mark : Nat) : Bool :=
  (log.items.drop mark).any Diagnostic.isError

/-- Sort the diagnostics after the first `mark` by where they start; those that start together keep
their order. -/
def sortSince (log : DiagnosticLog) (mark : Nat) : DiagnosticLog :=
  { log with
    items := log.items.take mark ++
      (log.items.drop mark).mergeSort fun a b => a.location.start ≤ b.location.start }

end DiagnosticLog

end ComponentAnalysis
