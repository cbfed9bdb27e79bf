import ComponentAnalysis.Component.Declaration
import ComponentAnalysis.Imports

/-! How the names visible in a component's template are bound. -/
namespace ComponentAnalysis

/-- How a template may use a name. -/
inductive BindingKind where
  /-- A constant of the component function or its module, whose value is known only when it runs. -/
  | setupConst
  /-- A constant known beforehand, or a function, class or enum of the module. -/
  | literalConst
  /-- A ref, read through its `value`. -/
  | setupRef
  /-- A reactive object. -/
  | setupReactiveConst
  deriving DecidableEq, Repr

def BindingKind.toString : BindingKind → String
  | setupConst => "setup-const"
  | literalConst => "literal-const"
  | setupRef => "setup-ref"
  | setupReactiveConst => "setup-reactive-const"

structure BindingAnalysis where
  bindings : Table BindingKind := .empty
  /-- Variables of the body that are constants and may still hold a ref. -/
  maybeRefs : List String := []
  /-- For each name declared at the top of the body, the number of the last statement that does. -/
  declarations : Table Nat := .empty

/-- A name declared at the top of a component's body. -/
structure BodyDeclaration where
  name : String
  kind : BindingKind
  maybeRef : Bool := false
  deriving DecidableEq, Repr

namespace Tree

/-- The names that one declarator of a module's variable statement binds. -/
def moduleDeclaratorBindings (d : Tree) : List (String × BindingKind) :=
  match d.declaratorName? with
  | some name =>
    let isLiteral := d.isConstDeclarator && (d.declaratorValue?.any isStatic)
    [(name, if isLiteral then .literalConst else .setupConst)]
  | none => ((d.declaratorPattern?.elim [] patternNames)).map fun name => (name, .setupConst)

/-- The local name that one specifier of an import binds at run time. -/
def runtimeName? : Tree → Option String
  | node .importDefault _ [node (.binding name) _ _]
  | node .importNamespace _ [node (.binding name) _ _]
  | node (.importNamed false) _ [node (.name _) _ _, node (.binding name) _ _]
  | node (.importNamed false) _ [node (.string _) _ _, node (.binding name) _ _] => some name
  | _ => none

/-- The names that a top-level statement binds at run time. -/
def moduleBindings (t : Tree) : List (String × BindingKind) :=
  match t.declarationForm with
  | .moduleImport =>
    if t.kind = .importDeclaration true then []
    else (t.children.filterMap runtimeName?).map fun name => (name, .setupConst)
  | .function | .classDefinition | .enumeration =>
    t.declared.declaredName?.toList.map fun name => (name, .literalConst)
  | .variable => t.declared.declarators.flatMap moduleDeclaratorBindings
  | .typeOnly | .other => []

/-- How a variable with an unwrapped initializer is bound. -/
def initializerKind (apis : Reactivity) (value : Tree) : BindingKind :=
  if value.macroName?.any fun name => name.base = .prop then .setupRef
  else
    match value.calleeName?.bind apis.callee? with
    | some .ref => .setupRef
    | some .reactive => .setupReactiveConst
    | none => .setupConst

/-- The names that one declarator of a body's variable statement binds. -/
def bodyDeclaratorBindings (apis : Reactivity) (d : Tree) : List BodyDeclaration :=
  match d.declaratorName? with
  | some name =>
    let value := d.declaratorValue?.map unwrap
    let kind := value.elim .setupConst (initializerKind apis)
    let isPlain := d.isConstDeclarator &&
      value.any fun v => v.isMacroCall || v.isNeverRef apis.reactiveName
    [⟨name, kind, kind = .setupConst && !isPlain⟩]
  | none => (d.declaratorPattern?.elim [] patternNames).map fun name => ⟨name, .setupConst, true⟩

/-- The names that a statement at the top of a component's body declares. -/
def bodyBindings (apis : Reactivity) (t : Tree) : List BodyDeclaration :=
  match t.exportableForm with
  | .variable => t.declarators.flatMap (bodyDeclaratorBindings apis)
  | .function | .classDefinition | .enumeration =>
    t.declaredName?.toList.map fun name => ⟨name, .setupConst, false⟩
  | _ => []

end Tree

/-- The body declarations of a function with the numbers of their statements. -/
def bodyDeclarations (apis : Reactivity) (function : Tree) : List (BodyDeclaration × Nat) :=
  function.bodyStatements.zipIdx.flatMap fun (statement, position) =>
    (statement.bodyBindings apis).map fun d => (d, position)

/-- The names that the module of a component binds around it: those of the other statements, then
the component itself, then its props parameter. A later binding of a name replaces one before
it. -/
def surroundingBindings (program : List Tree) (component : ComponentDeclaration)
    (propsAlias : Option String) : List (String × BindingKind) :=
  (program.zipIdx.flatMap fun (statement, position) =>
      if position = component.position then [] else statement.moduleBindings) ++
    (if component.name = "" then [] else [(component.name, .setupConst)]) ++
    propsAlias.toList.map fun name => (name, .setupReactiveConst)

/-- The bindings visible in a component. Names of the body replace those around it. -/
def classifyBindings (program : List Tree) (apis : Reactivity) (component : ComponentDeclaration)
    (function : Tree) (propsAlias : Option String) : BindingAnalysis :=
  let body := bodyDeclarations apis function
  { bindings := .ofList <|
      surroundingBindings program component propsAlias ++ body.map fun (d, _) => (d.name, d.kind)
    maybeRefs := body.filterMap fun (d, _) => if d.maybeRef then some d.name else none
    declarations := .ofList <| body.map fun (d, position) => (d.name, position) }

end ComponentAnalysis
