import ComponentAnalysis.Tree.Basic

/-! The free references of an expression: names used in it that no declaration inside it binds.
Scopes are opened and closed along a walk, and references are resolved when the walk is over, so
that a declaration also binds the references before it. -/
namespace ComponentAnalysis

/-- A name used as an expression. -/
structure Reference where
  name : String
  span : Span
  deriving DecidableEq, Repr

/-- A lexical scope with the names declared in it so far. -/
structure LexicalScope where
  /-- Whether `var` declarations land here. -/
  holdsVar : Bool
  names : List String := []
  deriving DecidableEq, Repr

/-- What a walk has collected: all scopes, numbered in the order in which they were opened, the
numbers of the open ones, innermost first, and the references with the scopes open at each. -/
structure ScopeWalk where
  scopes : List LexicalScope := []
  chain : List Nat := []
  references : List (Reference × List Nat) := []
  /-- Whether names now bound belong to a `var` declarator. -/
  inVarPattern : Bool := false
  deriving Repr

namespace ScopeWalk

/-- Open a scope inside the innermost one. -/
def enter (holdsVar : Bool) (w : ScopeWalk) : ScopeWalk :=
  { w with scopes := w.scopes ++ [⟨holdsVar, []⟩], chain := w.scopes.length :: w.chain }

def leave (w : ScopeWalk) : ScopeWalk := { w with chain := w.chain.tail }

/-- The scope that a declaration lands in: the innermost one, or the innermost that holds `var`. -/
def target? (toVarScope : Bool) (w : ScopeWalk) : Option Nat :=
  if toVarScope then
    w.chain.find? fun id => ((w.scopes[id]?).map LexicalScope.holdsVar).getD false
  else w.chain.head?

def declare (name : String) (toVarScope : Bool) (w : ScopeWalk) : ScopeWalk :=
  match w.target? toVarScope with
  | some id =>
    { w with scopes := w.scopes.modify id fun scope => { scope with names := name :: scope.names } }
  | none => w

/-- Record a reference with the scopes open at it. -/
def refer (reference : Reference) (w : ScopeWalk) : ScopeWalk :=
  { w with references := w.references ++ [(reference, w.chain)] }

/-- Whether one of the scopes of a chain declares a name. -/
def declares (w : ScopeWalk) (chain : List Nat) (name : String) : Bool :=
  chain.any fun id => ((w.scopes[id]?).map fun scope => scope.names.contains name).getD false

/-- The references that no scope open at them declares. -/
def freeReferences (w : ScopeWalk) : List Reference :=
  (w.references.filter fun (reference, chain) => !w.declares chain reference.name).map Prod.fst

end ScopeWalk

namespace Kind

/-- The scope that nodes of a kind open around all of their children, if they do; the value says
whether it holds `var`. -/
def opensScope : Kind → Option Bool
  | function _ | arrow | staticBlock => some true
  | block | forStatement | forInStatement | forOfStatement | catchClause | enumBody
  | methodSignature | constructSignature => some false
  | _ => none

/-- Whether nodes of a kind are erased, with all that is in them. -/
def isErased (k : Kind) : Bool := k.isType || k = typeParameters

end Kind

namespace Tree

mutual

/-- Walk a node: open and close scopes, declare names and record references. A class, a `switch`, an
interface and a namespace open their scope after the children that stand outside it. -/
def scopeWalk (t : Tree) (w : ScopeWalk) : ScopeWalk :=
  match t with
  | node (.reference name) s _ => w.refer ⟨name, s⟩
  | node (.binding name) _ _ => w.declare name w.inVarPattern
  | node (.declarator kind) _ (pattern :: rest) =>
    let w := scopeWalk pattern { w with inVarPattern := kind = .var }
    scopeWalkAll rest { w with inVarPattern := false }
  | node (.function .declaration) _ cs =>
    let w := match cs.findSome? fun c => match c with
        | node (.binding name) _ _ => some name
        | _ => none with
      | some name => w.declare name true
      | none => w
    (scopeWalkAll cs (w.enter true)).leave
  | node .classDefinition _ cs | node .classExpression _ cs => classWalk cs w
  | node .switchStatement _ (value :: cases) =>
    (scopeWalkAll cases ((scopeWalk value w).enter false)).leave
  | node .interface _ (name :: rest) => (scopeWalkAll rest ((scopeWalk name w).enter false)).leave
  | node .namespaceDeclaration _ (name :: rest) =>
    (scopeWalkAll rest ((scopeWalk name w).enter true)).leave
  | node kind _ cs =>
    if kind.isErased then w
    else match kind.opensScope with
      | some holdsVar => (scopeWalkAll cs (w.enter holdsVar)).leave
      | none => scopeWalkAll cs w

def scopeWalkAll (ts : List Tree) (w : ScopeWalk) : ScopeWalk :=
  match ts with
  | [] => w
  | t :: ts => scopeWalkAll ts (scopeWalk t w)

/-- Walk the children of a class. Its decorators and its name stand outside its scope. -/
def classWalk (ts : List Tree) (w : ScopeWalk) : ScopeWalk :=
  match ts with
  | [] => (w.enter false).leave
  | node .decorator s cs :: ts => classWalk ts (scopeWalk (node .decorator s cs) w)
  | node (.binding name) s cs :: ts => classWalk ts (scopeWalk (node (.binding name) s cs) w)
  | t :: ts => (scopeWalkAll ts (scopeWalk t (w.enter false))).leave

end

/-- The free references of several expressions, in the order of the walk. -/
def freeReferences (ts : List Tree) : List Reference :=
  (scopeWalkAll ts (ScopeWalk.enter true {})).freeReferences

end Tree

end ComponentAnalysis
