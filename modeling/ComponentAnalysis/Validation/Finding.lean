import ComponentAnalysis.Macro.Name
import ComponentAnalysis.Source.Diagnostic

/-! What validation can find fault with. -/
namespace ComponentAnalysis

inductive Finding where
  | malformedScript
  | invalidRootStatement
  | macroOutsideComponent
  | notAFunction (component : String)
  | interpolatedMarkup
  | tooManyParameters
  | parameterNotIdentifier
  | parameterNotTypeLiteral
  | ignoredPropMacros (component : String)
  | repeatedMacro (base : MacroBase)
  | unboundProp (name : MacroName)
  | missingDefault (name : MacroName)
  | surplusDefaultArguments (name : MacroName)
  | missingTypeArgument (name : MacroName)
  | surplusArguments (name : MacroName)
  | malformedEmits (name : MacroName)
  | notOneArgument (name : MacroName)
  | notAnObject (name : MacroName)
  | interpolatedStyle (name : MacroName)
  | unknownStyleLanguage (name : MacroName) (tag : String)
  | notAStyle (name : MacroName)
  | forwardReference (name : String)
  deriving DecidableEq, Repr

namespace Finding

def kind : Finding → DiagnosticKind
  | malformedScript | invalidRootStatement | macroOutsideComponent => .structural
  | forwardReference _ => .hoisting
  | _ => .macroUsage

def severity : Finding → Severity
  | ignoredPropMacros _ => .warning
  | _ => .error

def message : Finding → String
  | malformedScript => "Failed to parse vine file."
  | invalidRootStatement =>
    "Invalid root scope statement. Only import, export, function, class, enum, variable, " ++
      "type alias and interface declarations are allowed in a vine file."
  | macroOutsideComponent => "Vine macros can only be called inside a vine component function."
  | notAFunction component =>
    "Vine component \"" ++ component ++
      "\" must be a function declaration or a variable initialized with a function."
  | interpolatedMarkup => "Vine template string must not contain any interpolation."
  | tooManyParameters => "Vine component function can only have one parameter for its props."
  | parameterNotIdentifier => "Vine component props parameter must be a plain identifier."
  | parameterNotTypeLiteral =>
    "Vine component props parameter must be annotated with an object type literal containing " ++
      "only property signatures."
  | ignoredPropMacros component =>
    "vineProp calls in \"" ++ component ++
      "\" are ignored because props are already declared by its parameter."
  | repeatedMacro base =>
    "Multiple " ++ base.toString ++ " calls are not allowed in one vine component."
  | unboundProp name =>
    name.toString ++
      " must be used as the initializer of a variable declaration with a single identifier."
  | missingDefault name => name.toString ++ " must have a default value as its first argument."
  | surplusDefaultArguments name =>
    name.toString ++ " accepts a default value and a validator only."
  | missingTypeArgument name => name.toString ++ " must have a type parameter."
  | surplusArguments name => name.toString ++ " accepts a validator function only."
  | malformedEmits name =>
    name.toString ++
      " must have an object type literal as its only type parameter and no arguments."
  | notOneArgument name => name.toString ++ " must have exactly one argument."
  | notAnObject name => name.toString ++ " argument must be an object literal."
  | interpolatedStyle name => name.toString ++ " template must not contain any interpolation."
  | unknownStyleLanguage name tag =>
    name.toString ++ " does not support style language \"" ++ tag ++ "\"."
  | notAStyle name =>
    name.toString ++
      " argument must be a string, a template literal or a tagged template with a style language."
  | forwardReference name =>
    "Cannot reference \"" ++ name ++ "\" locally declared variables because it will be " ++
      "hoisted outside of the setup() function."

end Finding

abbrev Located := Finding × Span

/-- Add a fault at a place to a log. -/
def DiagnosticLog.report (log : DiagnosticLog) (fault : Located) : DiagnosticLog :=
  log.add fault.1.severity fault.1.kind fault.1.message fault.2

/-- Add several faults, in order. -/
def DiagnosticLog.reportAll (log : DiagnosticLog) (faults : List Located) : DiagnosticLog :=
  faults.foldl report log

/-- Whether a diagnostic says that a script could not be parsed. -/
def Diagnostic.isParseFailure (d : Diagnostic) : Bool :=
  d.kind = .structural && d.message = Finding.malformedScript.message

end ComponentAnalysis
