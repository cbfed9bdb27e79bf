import ComponentAnalysis.Tree.Expression

/-! Top-level statements, the functions they declare and the names they bind. -/
namespace ComponentAnalysis

/-- What a top-level statement declares, whether or not it is exported. -/
inductive DeclarationForm where
  | moduleImport
  | function
  | variable
  | classDefinition
  | enumeration
  /-- A type alias or an interface. -/
  | typeOnly
  | other
  deriving DecidableEq, Repr

/-- How a top-level declaration is exported. -/
inductive ExportKind where
  | none
  | named
  | default
  deriving DecidableEq, Repr, Inhabited

namespace ExportKind

def toString : ExportKind → String
  | none => "none"
  | named => "named"
  | default => "default"

end ExportKind

namespace Tree

/-- The form of a declaration that may be exported. -/
def exportableForm (t : Tree) : DeclarationForm :=
  match t.kind with
  | .function .declaration => .function
  | .variableStatement _ => .variable
  | .classDefinition => .classDefinition
  | .enumDeclaration => .enumeration
  | .typeAlias | .interface => .typeOnly
  | _ => .other

/-- The declaration in a statement, without the export around it. A default export counts only with
a function or a class. -/
def declared : Tree → Tree
  | node .exportNamed s (d :: rest) =>
    if d.exportableForm = .other then node .exportNamed s (d :: rest) else d
  | node .exportDefault s (d :: rest) =>
    if d.exportableForm = .function || d.exportableForm = .classDefinition then d
    else node .exportDefault s (d :: rest)
  | t => t

def declarationForm (t : Tree) : DeclarationForm :=
  match t.kind with
  | .importDeclaration _ => .moduleImport
  | _ => t.declared.exportableForm

def exportKind (t : Tree) : ExportKind :=
  match t.kind with
  | .exportNamed => .named
  | .exportDefault => .default
  | _ => .none

/-- Whether a statement may stand at the top level of a component file. -/
def isRootStatement (t : Tree) : Bool :=
  match t.kind with
  | .importDeclaration _ | .exportNamed => true
  | _ => t.exportableForm ≠ .other

/-- The name that a function, class, enum or type declaration binds. -/
def declaredName? (t : Tree) : Option String := t.children.findSome? bindingName?

def declarators : Tree → List Tree
  | node (.variableStatement _) _ cs => cs
  | _ => []

def declaratorPattern? : Tree → Option Tree
  | node (.declarator _) _ (pattern :: _) => some pattern
  | _ => none

def declaratorValue? : Tree → Option Tree
  | node (.declarator _) _ (_ :: rest) => rest.find? fun t => t.kind ≠ .typeAscription
  | _ => none

/-- Whether a declarator is one of a `const` statement. -/
def isConstDeclarator (t : Tree) : Bool := t.kind = .declarator .const

/-- The name of a declarator that binds a plain name. -/
def declaratorName? (t : Tree) : Option String := t.declaratorPattern?.bind bindingName?

mutual

/-- Every name that a pattern binds. -/
def patternNames : Tree → List String
  | node (.binding name) _ _ => [name]
  | node .objectPattern _ cs | node .arrayPattern _ cs | node .restPattern _ cs =>
    patternNamesAll cs
  | node .bindingProperty _ (_ :: value :: _) => patternNames value
  | node .defaultPattern _ (pattern :: _) => patternNames pattern
  | _ => []

def patternNamesAll : List Tree → List String
  | [] => []
  | t :: ts => patternNames t ++ patternNamesAll ts

end

/-- Whether a node is a function, written with `function` or with an arrow. -/
def isFunction (t : Tree) : Bool :=
  match t.kind with
  | .function _ | .arrow => true
  | _ => false

/-- The list of parameters of a function, with its parentheses. -/
def parameterList? (t : Tree) : Option Tree := t.child? (· = .parameters)

/-- The parameters of a function, without a receiver or rest parameter. -/
def parameters (t : Tree) : List Tree :=
  match t.parameterList? with
  | some list => list.children.filter fun p => p.kind = .parameter
  | none => []

/-- The statements of a function's body, without its directives. -/
def bodyStatements (t : Tree) : List Tree :=
  match t.child? (· = .functionBody) with
  | some body => body.children.filter fun s => s.kind ≠ .directive
  | none => []

/-- The function that a statement declares and the name it gives to it. A variable statement counts
only with its first declarator, and only if that binds a plain name. -/
def functionInfo (t : Tree) : Option Tree × String :=
  let d := t.declared
  match d.exportableForm with
  | .function => (some d, d.declaredName?.getD "")
  | .variable =>
    match d.declarators.head? with
    | none => (none, "")
    | some first =>
      match first.declaratorName? with
      | none => (none, "")
      | some name => ((first.declaratorValue?.map unwrap).filter isFunction, name)
  | _ => (none, "")

end Tree

end ComponentAnalysis
