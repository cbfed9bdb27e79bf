import ComponentAnalysis.Script.Types

/-! Parsers of functions and classes. -/
namespace ComponentAnalysis.Script

open ScriptParser

variable (parse : Grammar)

/-- Mark the leading statements that consist of a string as directives. -/
def markDirectives : List Tree → List Tree
  | .node .expressionStatement span [.node (.string value) inner []] :: rest =>
    .node .directive span [.node (.string value) inner []] :: markDirectives rest
  | statements => statements

def functionBody : ScriptParser Tree := do
  let start ← here
  expect "\x7b"
  let statements ← repeatUntil "\x7d" (parse (.statement true))
  finish .functionBody start (markDirectives statements)

/-- A function without `function` and name, as a method has it; the body may be missing. -/
def methodFunction : ScriptParser Tree := do
  let start ← here
  let shape ← callShape parse
  let body ← if ← isNext "\x7b" then pure [← functionBody parse] else pure []
  finish (.function .expression) start (shape ++ body)

/-- A function from its `function` on. Only a declaration may lack its body, and only an expression
or a default export may lack its name. -/
def functionFrom (start : Nat) (form : FunctionForm) (needsName : Bool) : ScriptParser Tree := do
  expectWord "function"
  let _ ← eat "*"
  let name ←
    if needsName || isAnyWord (← token) then pure [← bindingName] else pure []
  let shape ← callShape parse
  let body ←
    if (← isNext "\x7b") || form = .expression then pure [← functionBody parse]
    else do semicolon; pure []
  finish (.function form) start (name ++ shape ++ body)

def memberModifiers : List String :=
  ["public", "private", "protected", "static", "abstract", "override", "readonly", "declare",
   "accessor", "async", "get", "set"]

/-- Modifiers that have to stand on one line with what follows. -/
def lineModifiers : List String := ["async", "accessor", "declare", "abstract"]

def methodModifiers : List String := ["async", "get", "set"]

/-- Skip the modifiers of a class member. Gives whether one of them or a star asks for a method. -/
def skipMemberModifiers : ScriptParser Bool := do
  let found ← many do
    let token ← token
    let after ← following
    let sameLine := !after.afterBreak || !lineModifiers.any (isWord token)
    if memberModifiers.any (isWord token) && (startsKey after || isPunctuator after "*") && sameLine
    then
      advance
      return some (methodModifiers.any (isWord token))
    return none
  let isGenerator ← eat "*"
  return isGenerator || found.any id

/-- A member of a class; a semicolon alone gives nothing. -/
def classMember : ScriptParser (List Tree) := do
  if ← eat ";" then return []
  let start ← here
  let decorators ← decorators parse
  if (← isNextWord "static") && isPunctuator (← following) "\x7b" then
    advance
    expect "\x7b"
    let statements ← repeatUntil "\x7d" (parse (.statement false))
    return [← finish .staticBlock start statements]
  let needsMethod ← skipMemberModifiers
  if ← atIndexSignature then return [← indexSignature parse start]
  let key ← propertyKey parse
  if !(← eat "?") then
    let _ ← eat "!"
  if (← isNext "(") || (← isNext "<") then
    let function ← methodFunction parse
    if !(function.children.any fun c => c.kind = .functionBody) then semicolon
    return [← finish .method start (decorators ++ [key, function])]
  ensure !needsMethod
  let ascription ← ascription? parse
  let value ← initializer? parse true
  semicolon
  return [← finish .field start (decorators ++ key :: ascription ++ value)]

/-- A name or expression with type arguments. -/
def heritage : ScriptParser Tree := do
  let start ← here
  let base ← parse .leftHand
  let types ← typeArguments? parse
  finish .heritage start (base :: types)

def commaSeparated (item : ScriptParser Tree) : ScriptParser (List Tree) := do
  let first ← item
  let others ← many do
    if ← eat "," then return some (← item)
    return none
  return first :: others

/-- A class from its `class` on, as a declaration or an expression. -/
def classFrom (start : Nat) (kind : Kind) (decorators : List Tree) : ScriptParser Tree := do
  expectWord "class"
  let first ← token
  let isName := isAnyWord first && !isWord first "extends" && !isWord first "implements"
  let name ← if isName then pure [← bindingName] else pure []
  let generics ← typeParameters? parse
  let base ←
    if ← eatWord "extends" then do
      let base ← parse .leftHand
      pure (base :: (← typeArguments? parse))
    else pure []
  let interfaces ← if ← eatWord "implements" then commaSeparated (heritage parse) else pure []
  let bodyStart ← here
  expect "\x7b"
  let members ← repeatUntil "\x7d" (classMember parse)
  let body ← finish .classBody bodyStart members.flatten
  finish kind start (decorators ++ name ++ generics ++ base ++ interfaces ++ [body])

end ComponentAnalysis.Script
