import ComponentAnalysis.Script.Parser

/-! The goals that parsers of scripts have in common, and the parsers of names, keys, binding
patterns and parameters. A grammar says how each goal is parsed; the parsers here and in the modules
above take it as an argument and so need no recursion of their own. -/
namespace ComponentAnalysis.Script

/-- What a parser may ask for where parsers depend on each other in a circle. -/
inductive Goal where
  /-- A statement where imports and exports may stand. In an ambient place, as below `declare`,
  nothing needs a value. -/
  | item (isAmbient : Bool)
  | statement (inFunction : Bool)
  /-- An expression, with commas. -/
  | expression (allowIn : Bool)
  /-- An expression without commas. `inBranch` marks the middle of a conditional, where an arrow
  function with a return ascription has to be followed by a colon. -/
  | assignment (allowIn inBranch : Bool)
  /-- An expression of operators that bind tighter than the given precedence. -/
  | operand (precedence : Nat) (allowIn : Bool)
  | unary
  /-- An expression of names, calls and accesses. -/
  | leftHand
  | pattern
  | type (allowConditional : Bool)
  | typeOperand

abbrev Grammar := Goal → ScriptParser Tree

open ScriptParser

/-- Words that never name a variable. -/
def reservedWords : List String :=
  ["break", "case", "catch", "class", "const", "continue", "debugger", "default", "delete", "do",
   "else", "enum", "export", "extends", "false", "finally", "for", "function", "if", "import", "in",
   "instanceof", "new", "null", "return", "super", "switch", "this", "throw", "true", "try",
   "typeof", "var", "void", "while", "with"]

def isVariableName (token : Token) : Bool :=
  match token.lexeme with
  | .word text _ => !reservedWords.contains text
  | _ => false

/-- The text of the next word, which may be a keyword. -/
def anyWord : ScriptParser String := do
  match (← token).lexeme with
  | .word text _ => advance; return text
  | _ => failure

/-- The text of the next word, which may not be a reserved word. -/
def plainWord : ScriptParser String := do
  ensure (isVariableName (← token))
  anyWord

def bindingName : ScriptParser Tree := do
  let start ← here
  finish (.binding (← plainWord)) start []

def referenceName : ScriptParser Tree := do
  let start ← here
  finish (.reference (← plainWord)) start []

/-- A name after a dot, in a label or in a list of imported or exported items. -/
def itemName : ScriptParser Tree := do
  let start ← here
  finish (.name (← anyWord)) start []

def stringNode : ScriptParser Tree := do
  match (← token).lexeme with
  | .string value => leaf (.string value)
  | _ => failure

variable (parse : Grammar)

/-- The key of a property. A computed key is the expression between the brackets. -/
def propertyKey : ScriptParser Tree := do
  match (← token).lexeme with
  | .word _ _ => itemName
  | .string value => leaf (.string value)
  | .number text => leaf (.number text)
  | .bigint text => leaf (.bigint text)
  | .privateWord text => leaf (.privateName text)
  | .punctuator "[" => do
    advance
    let key ← parse (.assignment true false)
    expect "]"
    return key
  | _ => failure

def startsKey (token : Token) : Bool :=
  match token.lexeme with
  | .word _ _ | .string _ | .number _ | .bigint _ | .privateWord _ => true
  | .punctuator text => text == "["
  | _ => false

/-- A template with the given parser for what stands in its interpolations. -/
def template (item : ScriptParser Tree) : ScriptParser Tree := do
  let start ← here
  let .templatePart value opens := (← token).lexeme | failure
  let (texts, items, _) ← iterate next ([← part value opens], [], opens)
  finish .template start (texts.reverse ++ items.reverse)
where
  part (value : Option String) (opens : Bool) : ScriptParser Tree := do
    let token ← token
    advance
    return .node (.templateText value) ⟨token.start + 1, token.stop - if opens then 2 else 1⟩ []
  next : List Tree × List Tree × Bool → ScriptParser (Option (List Tree × List Tree × Bool))
    | (_, _, false) => return none
    | (texts, items, true) => do
      let item ← item
      let some token := (← token).asTemplatePart? | failure
      replaceToken token
      let .templatePart value opens := token.lexeme | failure
      return some ((← part value opens) :: texts, item :: items, opens)

/-- A template without a tag. All escapes in it are well-formed. -/
def untaggedTemplate (item : ScriptParser Tree) : ScriptParser Tree := do
  let literal ← template item
  ensure (literal.children.all fun part => part.kind ≠ .templateText none)
  return literal

/-- A default value, if an equals sign is next. -/
def initializer? (allowIn : Bool) : ScriptParser (List Tree) := do
  if ← eat "=" then return [← parse (.assignment allowIn false)]
  return []

/-- A type after a colon, if one is next. -/
def ascription? : ScriptParser (List Tree) := do
  let start ← here
  if ← eat ":" then
    let type ← parse (.type true)
    return [← finish .typeAscription start [type]]
  return []

/-- A pattern with an optional default value. -/
def patternElement : ScriptParser Tree := do
  let start ← here
  let pattern ← parse .pattern
  match ← initializer? parse true with
  | [] => return pattern
  | value => finish .defaultPattern start (pattern :: value)

def restPattern : ScriptParser Tree := do
  let start ← here
  expect "..."
  let pattern ← parse .pattern
  finish .restPattern start [pattern]

def bindingProperty : ScriptParser Tree := do
  if ← isNext "..." then return ← restPattern parse
  let start ← here
  let first ← token
  let key ← propertyKey parse
  if ← eat ":" then
    let value ← patternElement parse
    finish .bindingProperty start [key, value]
  else
    ensure (isVariableName first)
    let .name text := key.kind | failure
    let binding := Tree.node (.binding text) key.span []
    match ← initializer? parse true with
    | [] => finish .bindingProperty start [key, binding]
    | value => do
      let pattern ← finish .defaultPattern start (binding :: value)
      finish .bindingProperty start [key, pattern]

/-- An element of an array pattern; a hole gives nothing. -/
def arrayPatternElement : ScriptParser (List Tree) := do
  if ← isNext "," then return []
  if ← isNext "..." then return [← restPattern parse]
  return [← patternElement parse]

/-- A name, an object pattern or an array pattern that binds names. -/
def bindingPattern : ScriptParser Tree := do
  let start ← here
  if ← eat "[" then
    let elements ← listUntil "]" (arrayPatternElement parse)
    finish .arrayPattern start elements.flatten
  else if ← eat "\x7b" then
    let properties ← listUntil "\x7d" (bindingProperty parse)
    finish .objectPattern start properties
  else bindingName

def decorators : ScriptParser (List Tree) :=
  many do
    let start ← here
    if ← eat "@" then
      let expression ← parse .leftHand
      return some (← finish .decorator start [expression])
    return none

def parameterModifiers : List String := ["public", "private", "protected", "readonly", "override"]

def skipParameterModifiers : ScriptParser Unit := do
  let _ ← many do
    let token ← token
    let after ← following
    let startsPattern := isAnyWord after || isPunctuator after "\x7b" || isPunctuator after "["
    if parameterModifiers.any (isWord token) && startsPattern then
      advance
      return some ()
    return none

def parameter : ScriptParser Tree := do
  let start ← here
  let decorators ← decorators parse
  skipParameterModifiers
  if ← eatWord "this" then
    finish .thisParameter start (← ascription? parse)
  else if ← eat "..." then
    let pattern ← parse .pattern
    let ascription ← ascription? parse
    finish .restParameter start (pattern :: ascription)
  else
    let pattern ← parse .pattern
    let _ ← eat "?"
    let ascription ← ascription? parse
    let value ← initializer? parse true
    finish .parameter start (decorators ++ pattern :: ascription ++ value)

/-- A list of parameters with its parentheses. Only the last may be a rest parameter. -/
def parameters : ScriptParser Tree := do
  let start ← here
  expect "("
  let items ← listUntil ")" (parameter parse)
  ensure (items.dropLast.all fun p => p.kind ≠ .restParameter)
  finish .parameters start items

end ComponentAnalysis.Script
