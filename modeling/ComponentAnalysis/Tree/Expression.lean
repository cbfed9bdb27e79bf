import ComponentAnalysis.Tree.Basic

/-! What an expression is, apart from parentheses and type wrappers. -/
namespace ComponentAnalysis.Tree

/-- The expression inside any type wrappers: `as`, `satisfies`, `!`, `<T>x` and type arguments. -/
def unwrapTypes : Tree → Tree
  | node .asType _ (e :: _) => unwrapTypes e
  | node .satisfiesType _ (e :: _) => unwrapTypes e
  | node .nonNull _ (e :: _) => unwrapTypes e
  | node .typeAssertion _ (_ :: e :: _) => unwrapTypes e
  | node .instantiation _ (e :: _) => unwrapTypes e
  | t => t

/-- The expression inside any type wrappers and parentheses. -/
def unwrap : Tree → Tree
  | node .asType _ (e :: _) => unwrap e
  | node .satisfiesType _ (e :: _) => unwrap e
  | node .nonNull _ (e :: _) => unwrap e
  | node .typeAssertion _ (_ :: e :: _) => unwrap e
  | node .instantiation _ (e :: _) => unwrap e
  | node .parenthesized _ (e :: _) => unwrap e
  | t => t

/-- Type wrappers outside do not matter to what is inside all wrappers. -/
theorem unwrap_unwrapTypes (t : Tree) : t.unwrapTypes.unwrap = t.unwrap := by
  induction t using unwrapTypes.induct with
  | case1 _ _ _ ih | case2 _ _ _ ih | case3 _ _ _ ih | case4 _ _ _ _ ih | case5 _ _ _ ih => exact ih
  | case6 t => rw [unwrapTypes] <;> assumption

/-- Unwrapping takes off the type wrappers, then one pair of parentheses, and so on. -/
theorem unwrap_eq (t : Tree) :
    t.unwrap =
      match t.unwrapTypes with
      | node .parenthesized _ (e :: _) => e.unwrap
      | inner => inner := by
  induction t using unwrapTypes.induct with
  | case1 _ _ _ ih | case2 _ _ _ ih | case3 _ _ _ ih | case4 _ _ _ _ ih | case5 _ _ _ ih => exact ih
  | case6 t =>
      rw [unwrapTypes] <;> try assumption
      split
      · rfl
      · rw [unwrap] <;> assumption

def referenceName? : Tree → Option String
  | node (.reference name) _ _ => some name
  | _ => none

def bindingName? : Tree → Option String
  | node (.binding name) _ _ => some name
  | _ => none

def callee? : Tree → Option Tree
  | node .call _ (callee :: _) => some callee
  | _ => none

/-- The name that a call calls, if its callee is a plain reference. -/
def calleeName? (t : Tree) : Option String := t.callee?.bind referenceName?

def callArguments : Tree → List Tree
  | node .call _ (_ :: rest) => rest.filter fun t => t.kind ≠ .typeArguments
  | _ => []

def callTypes (t : Tree) : List Tree :=
  match t.child? (· = .typeArguments) with
  | some types => types.children
  | none => []

/-- The template of a tagged template. -/
def tagged? : Tree → Option (Tree × Tree)
  | node .taggedTemplate _ (tag :: rest) => rest.getLast?.map fun template => (tag, template)
  | _ => none

/-- Whether a template has interpolations. -/
def isInterpolated (template : Tree) : Bool :=
  template.children.any fun t =>
    match t.kind with
    | .templateText _ => false
    | _ => true

/-- Whether an expression is a literal of any form. -/
def isLiteral (t : Tree) : Bool :=
  match t.kind with
  | .string _ | .number _ | .boolean _ | .null | .bigint _ | .regex _ | .template => true
  | _ => false

mutual

/-- Whether the value of an expression is known without running it: literals joined by operators. -/
def isStatic : Tree → Bool
  | node .asType _ (e :: _) => isStatic e
  | node .satisfiesType _ (e :: _) => isStatic e
  | node .nonNull _ (e :: _) => isStatic e
  | node .typeAssertion _ (_ :: e :: _) => isStatic e
  | node .instantiation _ (e :: _) => isStatic e
  | node .unary _ cs | node .logical _ cs | node .binary _ cs | node .conditional _ cs
  | node .sequence _ cs | node .template _ cs | node .parenthesized _ cs => areStatic cs
  | node (.templateText _) _ _ => true
  | node (.string _) _ _ | node (.number _) _ _ | node (.boolean _) _ _ | node .null _ _
  | node (.bigint _) _ _ => true
  | _ => false

def areStatic : List Tree → Bool
  | [] => true
  | t :: ts => isStatic t && areStatic ts

end

/-- Type wrappers do not change whether a value is known. -/
theorem isStatic_unwrapTypes (t : Tree) : t.unwrapTypes.isStatic = t.isStatic := by
  induction t using unwrapTypes.induct with
  | case1 _ _ _ ih | case2 _ _ _ ih | case3 _ _ _ ih | case4 _ _ _ _ ih | case5 _ _ _ ih =>
      rw [unwrapTypes, ih, isStatic]
  | case6 t => rw [unwrapTypes] <;> assumption

/-- Whether the value of an expression certainly is no ref. A call of `reactiveName`, the local name
of the constructor of reactive objects, gives none. -/
def isNeverRef (reactiveName : Option String) : Tree → Bool
  | node .sequence _ cs => lastIsNeverRef reactiveName cs
  | t =>
    (reactiveName.isSome && t.calleeName? = reactiveName) || t.isLiteral ||
      match t.kind with
      | .unary | .binary | .array | .object | .function _ | .arrow | .update | .classDefinition
      | .classExpression | .taggedTemplate => true
      | _ => false
where
  lastIsNeverRef (reactiveName : Option String) : List Tree → Bool
    | [] => false
    | [t] => isNeverRef reactiveName t
    | _ :: t :: ts => lastIsNeverRef reactiveName (t :: ts)

end ComponentAnalysis.Tree
