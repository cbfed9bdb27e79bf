import ComponentAnalysis.Component.Bindings
import ComponentAnalysis.Component.Props
import ComponentAnalysis.Style.Language
import ComponentAnalysis.Validation.Basic

/-! What analysis knows about a component and about a file. The tree that a template compiler makes
of markup is kept as it is; its type is a parameter. -/
namespace ComponentAnalysis

/-- The argument of a macro call as written. -/
structure Payload where
  source : String
  range : Span
  deriving DecidableEq, Repr

/-- The style of a component. -/
structure StyleDefinition where
  language : StyleLanguage
  /-- The text of the style, without its delimiters. -/
  source : String
  range : Span := {}
  isScoped : Bool
  component : String
  deriving DecidableEq, Repr

structure Component (Ast : Type) where
  name : String := ""
  exportKind : ExportKind := .none
  /-- The name of the props parameter; empty if the props come from macro calls. -/
  propsAlias : String := ""
  /-- The props in the order of their declarations. -/
  props : List (String × PropMeta) := []
  emitsAlias : String := ""
  emits : List String := []
  expose : Option Payload := none
  options : Option Payload := none
  bindings : Table BindingKind := .empty
  maybeRefs : List String := []
  scopeId : String := ""
  /-- The variable of each expression that a scoped style takes from the component. -/
  styleVariables : Table String := .empty
  template : Option String := none
  templateRange : Option Span := none
  templateAst : Option Ast := none
  range : Span := {}

structure FileAnalysis (Ast : Type) where
  fileId : String
  source : String
  components : List (Component Ast) := []
  imports : Imports := {}
  /-- The style registered under each scope. -/
  styles : Table StyleDefinition := .empty
  diagnostics : List Diagnostic := []
  outcome : ValidationOutcome := {}

namespace Component

variable {Ast : Type}

def prop? (component : Component Ast) (name : String) : Option PropMeta :=
  component.props.lookup name

end Component

namespace FileAnalysis

variable {Ast : Type}

/-- Whether code may be generated for the file. -/
def isValid (file : FileAnalysis Ast) : Bool :=
  file.outcome.passed && !file.diagnostics.any Diagnostic.isError

def component? (file : FileAnalysis Ast) (name : String) : Option (Component Ast) :=
  file.components.find? fun c => c.name = name

/-- The scopes under which styles are registered, sorted. -/
def scopeIds (file : FileAnalysis Ast) : List String :=
  file.styles.keys.mergeSort fun a b => a ≤ b

/-- The component that owns the style registered under a scope. -/
def styleOwner? (file : FileAnalysis Ast) (scopeId : String) : Option (Component Ast) :=
  (file.styles.find? scopeId).bind fun style =>
    file.components.find? fun c => c.scopeId = scopeId ∧ c.name = style.component

end FileAnalysis

end ComponentAnalysis
