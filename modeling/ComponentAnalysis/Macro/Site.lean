import ComponentAnalysis.Macro.Name
import ComponentAnalysis.Macro.References
import ComponentAnalysis.Script.Numeral
import ComponentAnalysis.Tree.Statement

/-! Macro calls inside a component function, with what validation and analysis read from them. -/
namespace ComponentAnalysis

/-- What an argument of a macro is, apart from parentheses and type wrappers. Contents are the spans
between the delimiters of a literal. -/
inductive ArgumentShape where
  | object
  | boolean (value : Bool)
  | string (content : Span)
  | template (content : Span) (isInterpolated : Bool)
  | tagged (tag : String) (content : Span) (isInterpolated : Bool)
  | spread
  | other
  deriving DecidableEq, Repr

structure MacroArgument where
  span : Span
  shape : ArgumentShape
  deriving DecidableEq, Repr

/-- The first type argument of a macro call. -/
structure MacroTypeArgument where
  span : Span
  isBoolean : Bool
  /-- The names of its members, if it is an object type literal. -/
  literalMembers : Option (List String)
  deriving DecidableEq, Repr

structure MacroSite where
  name : MacroName
  span : Span
  /-- The name of the declarator that the call initializes, if that binds a plain name. -/
  binding : Option String
  /-- Number of type arguments. -/
  typeArgumentCount : Nat
  typeArgument : Option MacroTypeArgument
  arguments : List MacroArgument
  /-- The free references of the arguments, if the macro is hoisted. -/
  references : List Reference
  deriving DecidableEq, Repr

/-- The name of a property signature: that of a plain key or a string, and otherwise nothing. -/
def Tree.propertySignatureName (t : Tree) : String :=
  match t.children.head? with
  | some (.node (.name text) _ _) => text
  | some (.node (.string value) _ _) => value
  | _ => ""

/-- The name of a method signature: that of any key which is known without running it. -/
def Tree.methodSignatureName (t : Tree) : String :=
  match t.children.head? with
  | some (.node (.name text) _ _) => text
  | some (.node (.string value) _ _) => value
  | some (.node (.number text) _ _) => Script.numeralKey text
  | some (.node (.bigint text) _ _) => Script.bigintKey text
  | some (.node (.regex text) _ _) => text
  | some (.node .null _ _) => "null"
  | some (.node .template _ [.node (.templateText value) _ _]) => value.getD ""
  | _ => ""

/-- The non-empty names of the members of an object type literal. -/
def Tree.literalMemberNames (t : Tree) : List String :=
  (t.children.filterMap fun member =>
    match member.kind with
    | .propertySignature _ => some member.propertySignatureName
    | .methodSignature => some member.methodSignatureName
    | _ => none).filter fun name => name ≠ ""

def MacroTypeArgument.ofType (t : Tree) : MacroTypeArgument where
  span := t.span
  isBoolean := t.kind = .booleanType
  literalMembers := if t.kind = .typeLiteral then some t.literalMemberNames else none

def ArgumentShape.ofArgument (t : Tree) : ArgumentShape :=
  if t.kind = .spread then .spread
  else
    let value := t.unwrap
    match value.kind with
    | .object => .object
    | .boolean b => .boolean b
    | .string _ => .string value.span.inner
    | .template => .template value.span.inner value.isInterpolated
    | .taggedTemplate =>
      match value.tagged? with
      | some (tag, text) =>
        match tag.referenceName? with
        | some name => .tagged name text.span.inner text.isInterpolated
        | none => .other
      | none => .other
    | _ => .other

def MacroArgument.ofArgument (t : Tree) : MacroArgument := ⟨t.span, .ofArgument t⟩

/-- The name of the declarator in a function whose initializer is the call at a span. -/
def Tree.bindingOfCall? (function : Tree) (span : Span) : Option String :=
  function.preorder.findSome? fun t =>
    match t.declaratorName?, t.declaratorValue?.map unwrap with
    | some name, some value => if value.kind = .call ∧ value.span = span then some name else none
    | _, _ => none

/-- The site of a call of a macro in a function. -/
def MacroSite.ofCall (function call : Tree) (name : MacroName) : MacroSite where
  name := name
  span := call.span
  binding := function.bindingOfCall? call.span
  typeArgumentCount := call.callTypes.length
  typeArgument := call.callTypes.head?.map .ofType
  arguments := call.callArguments.map .ofArgument
  references := if name.base.isHoisted then Tree.freeReferences call.callArguments else []

/-- All macro calls in a function, each before the calls inside it. -/
def Tree.macroSites (function : Tree) : List MacroSite :=
  function.preorder.filterMap fun t => t.macroName?.map (MacroSite.ofCall function t)

/-- Calls of singleton families after the first call of the same family. -/
def duplicatedSingletons (sites : List MacroSite) : List MacroSite :=
  go [] (sites.filter fun site => site.name.base.isSingleton)
where
  go (seen : List MacroBase) : List MacroSite → List MacroSite
    | [] => []
    | site :: rest =>
      if seen.contains site.name.base then site :: go seen rest
      else go (site.name.base :: seen) rest

def sitesOf (base : MacroBase) (sites : List MacroSite) : List MacroSite :=
  sites.filter fun site => site.name.base = base

end ComponentAnalysis
