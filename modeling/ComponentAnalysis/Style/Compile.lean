import ComponentAnalysis.Component.Basic

/-! Compiling the styles of a file with a given style compiler. -/
namespace ComponentAnalysis

/-- What a style compiler is given. -/
structure StyleRequest where
  fileId : String
  scopeId : String
  component : String
  language : StyleLanguage
  source : String
  isScoped : Bool
  /-- The variable of each expression that the style takes from its component. -/
  styleVariables : Table String

/-- Why a style was not compiled. -/
inductive StyleError where
  | unknownScope (scopeId : String)
  /-- The style compiler refused the style. -/
  | rejected (language message : String)
  deriving DecidableEq, Repr

def StyleError.message : StyleError → String
  | unknownScope scopeId => "No vine style registered for scope id " ++ scopeId
  | rejected language message => "Failed to compile " ++ language ++ " style: " ++ message

abbrev StyleCompiler (Output : Type) := StyleRequest → Except StyleError Output

variable {Ast Output : Type}

/-- Compile the style registered under a scope, with the variables of the component that owns it. -/
def FileAnalysis.compileStyle (file : FileAnalysis Ast) (compiler : StyleCompiler Output)
    (scopeId : String) : Except StyleError Output :=
  match file.styles.find? scopeId with
  | none => .error (.unknownScope scopeId)
  | some style =>
    compiler
      { fileId := file.fileId
        scopeId
        component := style.component
        language := style.language
        source := style.source
        isScoped := style.isScoped
        styleVariables := ((file.styleOwner? scopeId).map Component.styleVariables).getD .empty }

/-- A compiler that gives back what it is asked, except for the languages that it refuses. -/
def echoCompiler (refused : List String) : StyleCompiler StyleRequest := fun request =>
  if refused.contains request.language.toString then
    .error (.rejected request.language.toString "refused")
  else .ok request

end ComponentAnalysis
