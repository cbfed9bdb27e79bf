import ComponentAnalysis.Script.Functions

/-! Parsers of expressions. -/
namespace ComponentAnalysis.Script

open ScriptParser

variable (parse : Grammar)

def objectProperty : ScriptParser Tree := do
  let start ← here
  if ← eat "..." then
    let value ← parse (.assignment true false)
    return ← finish .spread start [value]
  let first ← token
  let after ← following
  let isAccessor := (isWord first "get" || isWord first "set") && startsKey after
  let isAsync := isWord first "async" && (startsKey after || isPunctuator after "*") &&
    !after.afterBreak
  if isAccessor || isAsync then advance
  let isGenerator ← eat "*"
  let keyToken ← token
  let key ← propertyKey parse
  if (← isNext "(") || (← isNext "<") then
    let function ← methodFunction parse
    finish .property start [key, function]
  else
    ensure (!isAccessor && !isAsync && !isGenerator)
    if ← eat ":" then
      let value ← parse (.assignment true false)
      finish .property start [key, value]
    else
      ensure (isVariableName keyToken)
      let .name text := key.kind | failure
      let value ← initializer? parse true
      finish .property start (key :: .node (.reference text) key.span [] :: value)

/-- An element of an array literal or an argument of a call. -/
def element : ScriptParser Tree := do
  let start ← here
  if ← eat "..." then
    let value ← parse (.assignment true false)
    finish .spread start [value]
  else parse (.assignment true false)

/-- An element of an array literal; a hole stands at its comma. -/
def arrayElement : ScriptParser Tree := do
  let token ← token
  if isPunctuator token "," then return .node .elision ⟨token.start, token.stop⟩ []
  element parse

def arguments : ScriptParser (List Tree) := do
  expect "("
  listUntil ")" (element parse)

/-- An arrow function from its arrow on. -/
def arrowFrom (start : Nat) (signature : List Tree) (allowIn inBranch : Bool) :
    ScriptParser Tree := do
  ensure !(← token).afterBreak
  expect "=>"
  if ← isNext "\x7b" then
    let body ← functionBody parse
    finish .arrow start (signature ++ [body])
  else
    let value ← parse (.assignment allowIn inBranch)
    let body := Tree.node .functionBody value.span [.node .expressionStatement value.span [value]]
    finish .arrow start (signature ++ [body])

/-- The parameters of an arrow function in parentheses, up to its arrow. -/
def arrowSignature : ScriptParser (List Tree) := do
  let shape ← callShape parse
  ensure ((← isNext "=>") && !(← token).afterBreak)
  return shape

/-- An arrow function with parameters in parentheses, if one is next. In the middle of a conditional
one with a return ascription has to be followed by the colon of the conditional. -/
def parenthesizedArrow? (start : Nat) (allowIn inBranch : Bool) : ScriptParser (Option Tree) := do
  let before ← get
  match ← attempt (arrowSignature parse) with
  | none => return none
  | some signature =>
    let isAscribed := signature.any fun t => t.kind = .typeAscription
    if inBranch && isAscribed then
      match ← attempt (arrowFrom parse start signature allowIn inBranch) with
      | some arrow =>
        if ← isNext ":" then return some arrow
        set before
        return none
      | none =>
        set before
        return none
    return some (← arrowFrom parse start signature allowIn inBranch)

/-- An arrow function whose parameter is a name, with or without `async` in front. -/
def nameArrow (start : Nat) (allowIn inBranch : Bool) : ScriptParser Tree := do
  let name ← bindingName
  let parameter := Tree.node .parameter name.span [name]
  arrowFrom parse start [.node .parameters name.span [parameter]] allowIn inBranch

/-- An arrow function, if one is next. -/
def arrow? (allowIn inBranch : Bool) : ScriptParser (Option Tree) := do
  let start ← here
  let first ← token
  let after ← following
  if isVariableName first && isPunctuator after "=>" then
    return some (← nameArrow parse start allowIn inBranch)
  if isWord first "async" && !after.afterBreak then
    if isVariableName after && isPunctuator after.next "=>" then
      advance
      return some (← nameArrow parse start allowIn inBranch)
    if isPunctuator after "(" || isPunctuator after "<" then
      let before ← get
      advance
      let arrow ← parenthesizedArrow? parse start allowIn inBranch
      if arrow.isNone then set before
      return arrow
  if isPunctuator first "(" || isPunctuator first "<" then
    return ← parenthesizedArrow? parse start allowIn inBranch
  return none

def wordExpression : ScriptParser Tree := do
  let start ← here
  let first ← token
  let after ← following
  if isWord first "this" then leaf .this
  else if isWord first "super" then leaf .super
  else if isWord first "null" then leaf .null
  else if isWord first "true" then leaf (.boolean true)
  else if isWord first "false" then leaf (.boolean false)
  else if isWord first "function" then functionFrom parse start .expression false
  else if isWord first "async" && isWord after "function" && !after.afterBreak then
    advance
    functionFrom parse start .expression false
  else if isWord first "class" then classFrom parse start .classExpression []
  else if isWord first "import" then
    advance
    if ← eat "." then
      let name ← anyWord
      if ← isNext "(" then finish .importCall start (← arguments parse)
      else
        ensure (name == "meta")
        finish .metaProperty start []
    else finish .importCall start (← arguments parse)
  else referenceName

def regexExpression : ScriptParser Tree := do
  let some token := (← token).asRegex? | failure
  replaceToken token
  let .regex text := token.lexeme | failure
  leaf (.regex text)

/-- An expression without operators or accesses around it. -/
def primary : ScriptParser Tree := do
  let start ← here
  match (← token).lexeme with
  | .word _ _ => wordExpression parse
  | .number text => leaf (.number text)
  | .bigint text => leaf (.bigint text)
  | .string value => leaf (.string value)
  | .templatePart _ _ => untaggedTemplate (parse (.expression true))
  | .punctuator "(" => do
    advance
    let inner ← parse (.expression true)
    expect ")"
    finish .parenthesized start [inner]
  | .punctuator "[" => do
    advance
    let elements ← listUntil "]" (arrayElement parse)
    finish .array start elements
  | .punctuator "\x7b" => do
    advance
    let properties ← listUntil "\x7d" (objectProperty parse)
    finish .object start properties
  | .punctuator "@" => do
    let decorators ← decorators parse
    classFrom parse start .classExpression decorators
  | .punctuator "/" | .punctuator "/=" => regexExpression
  | _ => failure

def wordOperators : List String := ["in", "instanceof", "as", "satisfies"]

/-- Punctuators that can start an expression. -/
def expressionStarts : List String :=
  ["(", "[", "\x7b", "+", "-", "~", "!", "++", "--", "<", "/", "/=", "@"]

/-- Whether type arguments in front of a token belong to an expression, rather than being two
comparisons. -/
def endsTypeArguments (token : Token) : Bool :=
  match token.lexeme with
  | .punctuator "(" | .templatePart _ _ => true
  | .punctuator "<" | .punctuator ">" | .punctuator "+" | .punctuator "-" => false
  | .punctuator text => token.afterBreak || !expressionStarts.contains text
  | .word _ _ => token.afterBreak || wordOperators.any (isWord token)
  | .endOfInput => true
  | _ => token.afterBreak

/-- Type arguments in an expression, if they can be read as such. -/
def expressionTypeArguments? : ScriptParser (Option Tree) := do
  let token ← token
  if !(isPunctuator token "<" || isPunctuator token "<<") then return none
  attempt do
    let types ← typeArguments parse
    ensure (endsTypeArguments (← ScriptParser.token))
    return types

/-- The name after a dot, as an access to the object. -/
def access (start : Nat) (object : Tree) : ScriptParser Tree := do
  match (← token).lexeme with
  | .privateWord text => do
    let name ← leaf (.privateName text)
    finish .privateMember start [object, name]
  | _ => do
    let name ← itemName
    finish .member start [object, name]

def indexAccess (start : Nat) (object : Tree) : ScriptParser Tree := do
  expect "["
  let index ← parse (.expression true)
  expect "]"
  finish .computedMember start [object, index]

def callOn (start : Nat) (callee : Tree) (types : List Tree) : ScriptParser Tree := do
  let arguments ← arguments parse
  finish .call start (callee :: types ++ arguments)

/-- What follows `?.` in an access or call. -/
def optionalAccess (start : Nat) (object : Tree) : ScriptParser Tree := do
  if ← isNext "(" then callOn parse start object []
  else if ← isNext "[" then indexAccess parse start object
  else if (← isNext "<") || (← isNext "<<") then
    let types ← typeArguments parse
    callOn parse start object [types]
  else access start object

/-- One access after an object, whether or not calls are allowed. -/
def accessStep (start : Nat) (object : Tree) : ScriptParser (Option Tree) := do
  let token ← token
  if ← eat "." then return some (← access start object)
  if isPunctuator token "[" then return some (← indexAccess parse start object)
  if isPunctuator token "!" && !token.afterBreak then
    advance
    return some (← finish .nonNull start [object])
  match token.lexeme with
  | .templatePart _ _ => do
    let text ← template (parse (.expression true))
    return some (← finish .taggedTemplate start [object, text])
  | _ => return none

/-- One access, call or template after an object, with whether an optional one came before. -/
def suffixStep (start : Nat) : Tree × Bool → ScriptParser (Option (Tree × Bool))
  | (object, isOptional) => do
    if let some next ← accessStep parse start object then return some (next, isOptional)
    if ← eat "?." then return some (← optionalAccess parse start object, true)
    if ← isNext "(" then return some (← callOn parse start object [], isOptional)
    if let some types ← expressionTypeArguments? parse then
      if ← isNext "(" then return some (← callOn parse start object [types], isOptional)
      if let .templatePart _ _ := (← token).lexeme then
        let text ← template (parse (.expression true))
        return some (← finish .taggedTemplate start [object, types, text], isOptional)
      return some (← finish .instantiation start [object, types], isOptional)
    return none

/-- A construction from its `new` on, or the `new.target` of a function. -/
def constructFrom : ScriptParser Tree := do
  let start ← here
  expectWord "new"
  if ← eat "." then
    let _ ← anyWord
    return ← finish .metaProperty start []
  let calleeStart ← here
  let base ← if ← isNextWord "new" then parse .leftHand else primary parse
  let callee ← iterate (accessStep parse calleeStart) base
  let types ← expressionTypeArguments? parse
  let arguments ← if ← isNext "(" then arguments parse else pure []
  finish .construct start (callee :: types.toList ++ arguments)

/-- An expression of names, calls and accesses. One with an optional access is a chain. -/
def leftHand : ScriptParser Tree := do
  let start ← here
  let base ← if ← isNextWord "new" then constructFrom parse else primary parse
  let (expression, isOptional) ← iterate (suffixStep parse start) (base, false)
  if isOptional then finish .chain start [expression] else return expression

def unaryOperators : List String := ["+", "-", "~", "!"]

def unaryWords : List String := ["delete", "typeof", "void"]

def unary : ScriptParser Tree := do
  let start ← here
  let token ← token
  if unaryOperators.any (isPunctuator token) || unaryWords.any (isWord token) then
    advance
    let operand ← parse .unary
    finish .unary start [operand]
  else if isPunctuator token "++" || isPunctuator token "--" then
    advance
    let operand ← parse .unary
    finish .update start [operand]
  else if isWord token "await" then
    advance
    let operand ← parse .unary
    finish .await start [operand]
  else if isPunctuator token "<" then
    advance
    let type ← parse (.type true)
    expect ">"
    let operand ← parse .unary
    finish .typeAssertion start [type, operand]
  else
    let operand ← leftHand parse
    let after ← ScriptParser.token
    if (isPunctuator after "++" || isPunctuator after "--") && !after.afterBreak then
      advance
      finish .update start [operand]
    else return operand

/-- How tightly each operator between two operands binds. -/
def precedences : List (String × Nat) :=
  [("??", 1), ("||", 1), ("&&", 2), ("|", 3), ("^", 4), ("&", 5), ("==", 6), ("!=", 6), ("===", 6),
   ("!==", 6), ("<", 7), (">", 7), ("<=", 7), (">=", 7), ("<<", 8), (">>", 8), (">>>", 8), ("+", 9),
   ("-", 9), ("*", 10), ("/", 10), ("%", 10), ("**", 11)]

def operatorOf? (token : Token) (allowIn : Bool) : Option (String × Nat) :=
  match token.lexeme with
  | .punctuator text => (precedences.lookup text).map fun p => (text, p)
  | .word text false =>
    if text == "instanceof" || (text == "in" && allowIn) then some (text, 7)
    else if (text == "as" || text == "satisfies") && !token.afterBreak then some (text, 7)
    else none
  | _ => none

def operationKind (operator : String) : Kind :=
  if ["??", "||", "&&"].contains operator then .logical
  else if operator == "as" then .asType
  else if operator == "satisfies" then .satisfiesType
  else .binary

/-- One operator and its right operand after a left operand. Operators bind to the left, except for
the power. -/
def operationStep (start precedence : Nat) (allowIn : Bool) (left : Tree) :
    ScriptParser (Option Tree) := do
  if isPunctuator (← token) ">" then replaceToken (← token).widen
  let token ← token
  match operatorOf? token allowIn with
  | none => return none
  | some (operator, binding) =>
    if binding < precedence || (binding == precedence && operator != "**") then return none
    advance
    let kind := operationKind operator
    let right ←
      if kind = .asType || kind = .satisfiesType then parse (.type true)
      else parse (.operand binding allowIn)
    return some (← finish kind start [left, right])

/-- Operands joined by operators that bind tighter than the given precedence. -/
def operand (precedence : Nat) (allowIn : Bool) : ScriptParser Tree := do
  let start ← here
  let left ←
    match (← token).lexeme with
    | .privateWord text => do
      let name ← leaf (.privateName text)
      expectWord "in"
      let object ← parse (.operand 7 allowIn)
      finish .privateIn start [name, object]
    | _ => unary parse
  iterate (operationStep parse start precedence allowIn) left

def assignmentOperators : List String :=
  ["=", "+=", "-=", "*=", "/=", "%=", "**=", "<<=", ">>=", ">>>=", "&=", "|=", "^=", "&&=", "||=",
   "??="]

def isAssignable : Kind → Bool
  | .reference _ | .member | .computedMember | .privateMember | .array | .object | .parenthesized
  | .asType | .satisfiesType | .nonNull | .typeAssertion => true
  | _ => false

def yieldExpression (allowIn : Bool) : ScriptParser Tree := do
  let start ← here
  expectWord "yield"
  let token ← token
  let ends := token.lexeme == .endOfInput ||
    [")", "]", "\x7d", ",", ";", ":"].any (isPunctuator token)
  if token.afterBreak || (ends && !isPunctuator token "*") then finish .yield start []
  else
    let _ ← eat "*"
    let value ← parse (.assignment allowIn false)
    finish .yield start [value]

/-- An expression without commas. -/
def assignment (allowIn inBranch : Bool) : ScriptParser Tree := do
  if ← isNextWord "yield" then return ← yieldExpression parse allowIn
  if let some arrow ← arrow? parse allowIn inBranch then return arrow
  let start ← here
  let target ← operand parse 0 allowIn
  if ← eat "?" then
    let yes ← parse (.assignment true true)
    expect ":"
    let no ← parse (.assignment allowIn inBranch)
    finish .conditional start [target, yes, no]
  else if assignmentOperators.any (isPunctuator (← token)) then
    ensure (isAssignable target.kind)
    advance
    let value ← parse (.assignment allowIn inBranch)
    finish .assignment start [target, value]
  else return target

/-- An expression, perhaps with commas. -/
def expression (allowIn : Bool) : ScriptParser Tree := do
  let start ← here
  let first ← parse (.assignment allowIn false)
  let others ← many do
    if ← eat "," then return some (← parse (.assignment allowIn false))
    return none
  if others.isEmpty then return first else finish .sequence start (first :: others)

end ComponentAnalysis.Script
