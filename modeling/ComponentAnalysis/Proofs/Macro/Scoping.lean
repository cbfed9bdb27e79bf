import ComponentAnalysis.Macro.References
import ComponentAnalysis.Proofs.Tree.Preorder
import ComponentAnalysis.Tree.Statement

/-! Lexical scoping in modules, read off the syntax from the inside out. A piece of code leaves
references open and declares names in the block and in the function around it; a block or function
that ends binds the references in it to the names declared there, before or behind them. -/
namespace ComponentAnalysis

/-- What a piece of code leaves open to the code around it. -/
structure Scoping where
  /-- The references in it that nothing in it binds. -/
  free : List Reference := []
  /-- The names that it declares in the block around it. -/
  blockNames : List String := []
  /-- The names that it declares in the function around it. -/
  functionNames : List String := []
  deriving DecidableEq, Repr

namespace Scoping

/-- A single reference. -/
def use (r : Reference) : Scoping := { free := [r] }

/-- Declarations in the block around. -/
def declare (names : List String) : Scoping := { blockNames := names }

/-- Declarations in the function around. -/
def declareVar (names : List String) : Scoping := { functionNames := names }

/-- A declaration in the function around or in the block around. -/
def declareIn (function : Bool) (name : String) : Scoping :=
  if function then declareVar [name] else declare [name]

instance : Append Scoping where
  append a b :=
    ⟨a.free ++ b.free, a.blockNames ++ b.blockNames, a.functionNames ++ b.functionNames⟩

/-- Whether the code declares a name for the code around it. -/
def Binds (s : Scoping) (name : String) : Prop := name ∈ s.blockNames ∨ name ∈ s.functionNames

instance (s : Scoping) (name : String) : Decidable (s.Binds name) :=
  inferInstanceAs (Decidable (_ ∨ _))

/-- The code as a block of its own. -/
def block (s : Scoping) : Scoping where
  free := s.free.filter fun r => !s.blockNames.contains r.name
  functionNames := s.functionNames

/-- The code as a function of its own. -/
def function (s : Scoping) : Scoping where
  free := s.free.filter fun r => !(s.blockNames ++ s.functionNames).contains r.name

/-- The same code with all of its declarations in the function around it. -/
def hoist (s : Scoping) : Scoping where
  free := s.free
  functionNames := s.blockNames ++ s.functionNames

/-- The code as a scope of its own, which may hold `var`. -/
def close (holdsVar : Bool) (s : Scoping) : Scoping := if holdsVar then s.function else s.block

section

variable {a b s : Scoping} {r : Reference} {name : String}

@[simp] theorem free_append : (a ++ b).free = a.free ++ b.free := rfl

@[simp] theorem blockNames_append : (a ++ b).blockNames = a.blockNames ++ b.blockNames := rfl

@[simp] theorem functionNames_append :
    (a ++ b).functionNames = a.functionNames ++ b.functionNames := rfl

/-- A block keeps the names of its own declarations to itself. -/
@[simp] theorem blockNames_block : s.block.blockNames = [] := rfl

/-- The `var` declarations in a block belong to the function around it. -/
@[simp] theorem functionNames_block : s.block.functionNames = s.functionNames := rfl

/-- Code in sequence may be taken together in any way. -/
theorem append_assoc (a b c : Scoping) : a ++ b ++ c = a ++ (b ++ c) :=
  mk.injEq .. ▸ ⟨List.append_assoc .., List.append_assoc .., List.append_assoc ..⟩

@[simp] theorem empty_append (s : Scoping) : {} ++ s = s := rfl

/-- Code in sequence binds the names of both its parts. -/
theorem binds_append : (a ++ b).Binds name ↔ a.Binds name ∨ b.Binds name := by
  simp only [Binds, blockNames_append, functionNames_append, List.mem_append]
  exact or_or_or_comm

/-- Beyond a block only its `var` declarations are seen. -/
theorem binds_block : s.block.Binds name ↔ name ∈ s.functionNames := by
  simp [Binds]

theorem not_binds_empty : ¬ Scoping.Binds {} name := by
  simp [Binds]

/-- No declaration in a function is seen around it. -/
theorem not_binds_function : ¬ s.function.Binds name := by
  simp [Binds, function]

/-- Hoisting moves declarations but neither adds nor loses any. -/
theorem binds_hoist : s.hoist.Binds name ↔ s.Binds name := by
  simp [Binds, hoist]

/-- A reference leaves a block unless the block itself declares its name. -/
theorem mem_free_block : r ∈ s.block.free ↔ r ∈ s.free ∧ r.name ∉ s.blockNames := by
  simp [block]

/-- A reference leaves a function unless something in the function declares its name. -/
theorem mem_free_function : r ∈ s.function.free ↔ r ∈ s.free ∧ ¬ s.Binds r.name := by
  simp [function, Binds]

end

end Scoping

namespace Kind

/-- Whether nodes of a kind only matter to types, which are erased with all that is in them: types,
their declarations and imports, the signatures in them and the types that a class implements. -/
def isTypeOnly : Kind → Bool
  | typeParameters | typeAlias | interface | heritage | propertySignature _ | methodSignature
  | callSignature | constructSignature | indexSignature | importDeclaration true
  | importNamed true => true
  | k => k.isType

/-- Whether nodes of a kind are blocks around all of their children. A loop is one around its head
and its body, a `catch` clause one around its parameter. -/
def isBlock : Kind → Bool
  | block | forStatement | forInStatement | forOfStatement | catchClause => true
  | _ => false

end Kind

namespace Tree

/-- The name of a member of an enum, if it is known without running anything. -/
def enumMemberName? : Tree → Option String
  | node .enumMember _ (key :: _) =>
    match key with
    | node (.name text) _ _ => some text
    | node (.string value) _ _ => some value
    | node .template _ [node (.templateText value) _ _] => value
    | _ => none
  | _ => none

/-- The name of a class, behind its decorators. -/
def classNames : List Tree → List String
  | node .decorator _ _ :: ts => classNames ts
  | node (.binding name) _ _ :: ts => name :: classNames ts
  | _ => []

mutual

/-- The scoping of a node in a module. A function holds its own name, its parameters and its `var`s,
and its body is a block in it. The name of a declared function or class stands in the block around
it as well, that of a class expression only in the class. A class is a block around all but its
decorators, an enum one around its members, whose names it declares. -/
def scoping (t : Tree) : Scoping :=
  match t with
  | node (.reference name) s _ => .use ⟨name, s⟩
  | node (.binding name) _ _ => .declare [name]
  | node (.declarator kind) _ (pattern :: rest) =>
    (if kind = .var then (scoping pattern).hoist else scoping pattern) ++ scopingAll rest
  | node (.function .declaration) _ cs =>
    .declare (cs.findSome? bindingName?).toList ++
      ((functionScoping cs).1 ++ (functionScoping cs).2.block).function
  | node (.function .expression) _ cs | node .arrow _ cs =>
    ((functionScoping cs).1 ++ (functionScoping cs).2.block).function
  | node .classDefinition _ cs =>
    .declare (classNames cs) ++ ((classScoping cs).1 ++ (classScoping cs).2.block)
  | node .classExpression _ cs => (classScoping cs).1 ++ (classScoping cs).2.block
  | node .staticBlock _ cs => (scopingAll cs).function
  | node .switchStatement _ (value :: cases) => scoping value ++ (scopingAll cases).block
  | node .enumBody _ cs => (.declare (cs.filterMap enumMemberName?) ++ scopingAll cs).block
  | node .namespaceDeclaration _ (name :: rest) => scoping name ++ (scopingAll rest).function
  | node kind _ cs =>
    if kind.isTypeOnly then {} else if kind.isBlock then (scopingAll cs).block else scopingAll cs

def scopingAll (ts : List Tree) : Scoping :=
  match ts with
  | [] => {}
  | t :: ts => scoping t ++ scopingAll ts

/-- The scoping of the signature of a function and that of its body. -/
def functionScoping (ts : List Tree) : Scoping × Scoping :=
  match ts with
  | [] => ({}, {})
  | node .functionBody _ cs :: ts =>
    ((functionScoping ts).1, scopingAll cs ++ (functionScoping ts).2)
  | t :: ts => (scoping t ++ (functionScoping ts).1, (functionScoping ts).2)

/-- The scoping of the decorators of a class and that of its name and all behind it. -/
def classScoping (ts : List Tree) : Scoping × Scoping :=
  match ts with
  | [] => ({}, {})
  | node .decorator s cs :: ts =>
    (scoping (node .decorator s cs) ++ (classScoping ts).1, (classScoping ts).2)
  | node (.binding name) _ _ :: ts => ((classScoping ts).1, .declare [name] ++ (classScoping ts).2)
  | t :: ts => ({}, scoping t ++ scopingAll ts)

end

/-- The references in several expressions that no declaration in them binds. -/
def unboundReferences (ts : List Tree) : List Reference := (scopingAll ts).function.free

end Tree

end ComponentAnalysis
