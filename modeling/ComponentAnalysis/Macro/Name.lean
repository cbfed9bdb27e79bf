import ComponentAnalysis.Tree.Expression

/-! The closed set of compile-time macros that a component function may call. -/
namespace ComponentAnalysis

inductive MacroBase where
  | prop
  | emits
  | expose
  | options
  | style
  deriving DecidableEq, Repr

inductive MacroVariant where
  | isOptional
  | withDefault
  | isScoped
  deriving DecidableEq, Repr

/-- A macro: its family and perhaps a variant. -/
structure MacroName where
  base : MacroBase
  variant : Option MacroVariant := none
  deriving DecidableEq, Repr

namespace MacroBase

def toString : MacroBase → String
  | prop => "vineProp"
  | emits => "vineEmits"
  | expose => "vineExpose"
  | options => "vineOptions"
  | style => "vineStyle"

def all : List MacroBase := [prop, emits, expose, options, style]

def ofString? (name : String) : Option MacroBase := all.find? fun base => base.toString = name

/-- Whether the arguments of the family are moved out of the component function. -/
def isHoisted : MacroBase → Bool
  | prop | options => true
  | _ => false

/-- Whether the family may be called at most once in a component. -/
def isSingleton : MacroBase → Bool
  | prop => false
  | _ => true

def variants : MacroBase → List MacroVariant
  | prop => [.isOptional, .withDefault]
  | style => [.isScoped]
  | _ => []

end MacroBase

namespace MacroVariant

def toString : MacroVariant → String
  | isOptional => "optional"
  | withDefault => "withDefault"
  | isScoped => "scoped"

end MacroVariant

namespace MacroName

def toString (name : MacroName) : String :=
  match name.variant with
  | none => name.base.toString
  | some variant => name.base.toString ++ "." ++ variant.toString

/-- The macro with the given spelling, in two parts. -/
def ofParts? (object : String) (property : Option String) : Option MacroName := do
  let base ← MacroBase.ofString? object
  match property with
  | none => return ⟨base, none⟩
  | some property => do
    let variant ← base.variants.find? fun variant => variant.toString = property
    return ⟨base, some variant⟩

/-- The macro that a callee spells: a name or a name with a dotted member. -/
def ofCallee? (callee : Tree) : Option MacroName :=
  match callee with
  | .node (.reference name) _ _ => ofParts? name none
  | .node .member _ [.node (.reference object) _ _, .node (.name property) _ _] =>
    ofParts? object (some property)
  | _ => none

end MacroName

/-- A condition on macros. -/
inductive MacroMatcher where
  /-- Every variant of a family. -/
  | family (base : MacroBase)
  /-- Exactly the listed macros. -/
  | oneOf (names : List MacroName)

def MacroMatcher.accepts : MacroMatcher → MacroName → Bool
  | family base, name => name.base = base
  | oneOf names, name => names.contains name

namespace Tree

def macroName? (t : Tree) : Option MacroName := t.callee?.bind MacroName.ofCallee?

def isMacroCall (t : Tree) : Bool := t.macroName?.isSome

/-- The spans of all macro calls in a node, each before the calls inside it. -/
def macroCalls (t : Tree) : List Span :=
  t.preorder.filterMap fun n => if n.isMacroCall then some n.span else none

end Tree

end ComponentAnalysis
