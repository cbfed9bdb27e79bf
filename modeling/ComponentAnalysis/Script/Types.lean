import ComponentAnalysis.Script.Goal

/-! Parsers of types. -/
namespace ComponentAnalysis.Script

open ScriptParser

variable (parse : Grammar)

def typeArguments : ScriptParser Tree := do
  replaceToken (← token).narrow
  let start ← here
  expect "<"
  let types ← listUntil ">" (parse (.type true))
  ensure !types.isEmpty
  finish .typeArguments start types

/-- Types between angle brackets, if an opening bracket is next. -/
def typeArguments? : ScriptParser (List Tree) := do
  if ← isNext "<" then return [← typeArguments parse]
  return []

def skipVariance : ScriptParser Unit := do
  let _ ← many do
    let token ← token
    let after ← following
    if ["const", "in", "out"].any (isWord token) && isAnyWord after && !isWord after "extends" then
      advance
      return some ()
    return none

def typeParameter : ScriptParser Tree := do
  let start ← here
  skipVariance
  let name ← bindingName
  let bound ← if ← eatWord "extends" then pure [← parse (.type true)] else pure []
  let value ← if ← eat "=" then pure [← parse (.type true)] else pure []
  finish .typeParameter start (name :: bound ++ value)

def typeParameters : ScriptParser Tree := do
  let start ← here
  expect "<"
  let items ← listUntil ">" (typeParameter parse)
  ensure !items.isEmpty
  finish .typeParameters start items

def typeParameters? : ScriptParser (List Tree) := do
  if ← isNext "<" then return [← typeParameters parse]
  return []

/-- Type parameters?, parameters, return ascription?. -/
def callShape : ScriptParser (List Tree) := do
  let generics ← typeParameters? parse
  let parameters ← parameters parse
  let result ← ascription? parse
  return generics ++ parameters :: result

/-- The end of a signature: a separator, or a place where none is needed. -/
def signatureEnd : ScriptParser Unit := do
  if !(← eat ",") then semicolon

/-- Whether a signature in brackets with a colon after its name is next. -/
def atIndexSignature : ScriptParser Bool := do
  let found ← attempt (lookAhead do
    expect "["
    let _ ← anyWord
    expect ":")
  return found.isSome

/-- A signature in brackets: the key's name and type, and the value's ascription. -/
def indexSignature (start : Nat) : ScriptParser Tree := do
  expect "["
  let _ ← anyWord
  let key ← ascription? parse
  expect "]"
  let value ← ascription? parse
  signatureEnd
  finish .indexSignature start (key ++ value)

def signature : ScriptParser Tree := do
  let start ← here
  let first ← token
  let after ← following
  if isPunctuator first "(" || isPunctuator first "<" then
    let shape ← callShape parse
    signatureEnd
    finish .callSignature start shape
  else if isWord first "new" && (isPunctuator after "(" || isPunctuator after "<") then
    advance
    let shape ← callShape parse
    signatureEnd
    finish .constructSignature start shape
  else
    if isWord first "readonly" && startsKey after then advance
    if ← atIndexSignature then return ← indexSignature parse start
    let first ← token
    let after ← following
    if (isWord first "get" || isWord first "set") && startsKey after then advance
    let key ← propertyKey parse
    let isOptional ← eat "?"
    if (← isNext "(") || (← isNext "<") then
      let shape ← callShape parse
      signatureEnd
      finish .methodSignature start (key :: shape)
    else
      let ascription ← ascription? parse
      signatureEnd
      finish (.propertySignature isOptional) start (key :: ascription)

def signatures : ScriptParser (List Tree) := do
  expect "\x7b"
  repeatUntil "\x7d" (signature parse)

/-- A sign in front of a modifier of a mapped type. -/
def skipSign : ScriptParser Unit := do
  if !(← eat "+") then
    let _ ← eat "-"

/-- A type that maps keys, up to its closing brace. -/
def mappedType (start : Nat) : ScriptParser Tree := do
  expect "\x7b"
  skipSign
  let _ ← eatWord "readonly"
  expect "["
  let name ← bindingName
  expectWord "in"
  let keys ← parse (.type true)
  let renamed ← if ← eatWord "as" then pure [← parse (.type true)] else pure []
  expect "]"
  skipSign
  let _ ← eat "?"
  let value ← ascription? parse
  let _ ← (eat ";" <|> eat ",")
  expect "\x7d"
  finish .otherType start (name :: keys :: renamed ++ value)

/-- An element of a tuple: perhaps spread, named or optional. -/
def tupleElement : ScriptParser Tree := do
  let start ← here
  let _ ← eat "..."
  let named ← attempt do
    let _ ← anyWord
    let _ ← eat "?"
    expect ":"
  let type ← parse (.type true)
  let isOptional ← eat "?"
  if named.isSome || isOptional || (← here) ≠ start then finish .otherType start [type]
  else return type

/-- Words joined by dots, with type arguments. -/
def qualifiedType (start : Nat) : ScriptParser Tree := do
  let _ ← many do
    if ← eat "." then return some (← anyWord)
    return none
  if (← isNext "<") && !(← token).afterBreak then
    let types ← typeArguments parse
    finish .otherType start [types]
  else finish .otherType start []

/-- The rest of a type that names a module, after the word `import`. -/
def importType (start : Nat) : ScriptParser Tree := do
  expect "("
  let items ← listUntil ")" (do
    if ← isNext "\x7b" then parse (.assignment true false) else parse (.type true))
  ensure !items.isEmpty
  qualifiedType parse start

/-- Words that are types of their own. -/
def typeWords : List String :=
  ["any", "unknown", "never", "void", "null", "undefined", "string", "number", "symbol", "bigint",
   "object", "intrinsic", "true", "false", "this", "const"]

def wordType : ScriptParser Tree := do
  let start ← here
  let first ← token
  let after ← following
  if isWord first "boolean" && !isPunctuator after "." then leaf .booleanType
  else if isWord first "typeof" then
    advance
    if ← eatWord "import" then importType parse start
    else
      let _ ← anyWord
      qualifiedType parse start
  else if isWord first "import" then
    advance
    importType parse start
  else if isWord first "asserts" && isAnyWord after && !after.afterBreak then
    advance
    let _ ← anyWord
    let type ← if ← eatWord "is" then pure [← parse (.type true)] else pure []
    finish .otherType start type
  else
    ensure (isVariableName first || typeWords.any (isWord first))
    advance
    if isWord after "is" && !after.afterBreak then
      advance
      let type ← parse (.type true)
      finish .otherType start [type]
    else qualifiedType parse start

/-- A type without operators around it. -/
def primaryType : ScriptParser Tree := do
  let start ← here
  match (← token).lexeme with
  | .word _ _ => wordType parse
  | .string _ | .number _ | .bigint _ => leaf .otherType
  | .templatePart _ _ => do
    let literal ← untaggedTemplate (parse (.type true))
    finish .otherType start literal.children
  | .punctuator "-" => do
    advance
    advance
    finish .otherType start []
  | .punctuator "(" => do
    advance
    let type ← parse (.type true)
    expect ")"
    finish .otherType start [type]
  | .punctuator "[" => do
    advance
    let elements ← listUntil "]" (tupleElement parse)
    finish .otherType start elements
  | .punctuator "\x7b" => do
    match ← attempt (mappedType parse start) with
    | some type => return type
    | none =>
      let members ← signatures parse
      finish .typeLiteral start members
  | _ => failure

/-- A type with brackets after it. -/
def postfixType : ScriptParser Tree := do
  let start ← here
  iterate (step start) (← primaryType parse)
where
  step (start : Nat) (type : Tree) : ScriptParser (Option Tree) := do
    if (← token).afterBreak then return none
    if ← eat "[" then
      if ← eat "]" then return some (← finish .otherType start [type])
      let index ← parse (.type true)
      expect "]"
      return some (← finish .otherType start [type, index])
    return none

def startsType (token : Token) : Bool :=
  match token.lexeme with
  | .word _ _ | .string _ | .number _ | .bigint _ | .templatePart _ _ => true
  | .punctuator text => ["\x7b", "(", "[", "-"].contains text
  | _ => false

/-- A type with a word in front of it that acts on it. -/
def typeOperand : ScriptParser Tree := do
  let start ← here
  let first ← token
  let after ← following
  if ["keyof", "unique", "readonly"].any (isWord first) && startsType after then
    advance
    let type ← parse .typeOperand
    finish .otherType start [type]
  else postfixType parse

/-- A type to be inferred, with the bound it may have. `allowConditional` says whether the place may
hold a conditional type, which then claims the `extends`. -/
def inferredType (allowConditional : Bool) : ScriptParser Tree := do
  let start ← here
  expectWord "infer"
  let name ← bindingName
  let bound ← attempt do
    expectWord "extends"
    let bound ← parse (.type false)
    ensure (!allowConditional || !(← isNext "?"))
    return bound
  finish .otherType start (name :: bound.toList)

/-- Types joined by an operator, which may also stand in front of the first. -/
def joinedTypes (operator : String) (item : ScriptParser Tree) : ScriptParser Tree := do
  let start ← here
  let leads ← eat operator
  let first ← item
  let others ← many do
    if ← eat operator then return some (← item)
    return none
  if leads || !others.isEmpty then finish .otherType start (first :: others) else return first

def unionType (allowConditional : Bool) : ScriptParser Tree :=
  joinedTypes "|" <| joinedTypes "&" do
    let after ← following
    if (← isNextWord "infer") && isVariableName after then inferredType parse allowConditional
    else typeOperand parse

/-- The type of a function or of a constructor, if one is next. -/
def functionType? : ScriptParser (Option Tree) := do
  let start ← here
  let first ← token
  let after ← following
  if isWord first "abstract" && isWord after "new" then
    advance
    advance
    return some (← tail start)
  else if isWord first "new" then
    advance
    return some (← tail start)
  else if isPunctuator first "<" then return some (← tail start)
  else if isPunctuator first "(" then
    match ← attempt (do let p ← parameters parse; expect "=>"; return p) with
    | some parameters =>
      let result ← parse (.type true)
      return some (← finish .otherType start [parameters, result])
    | none => return none
  else return none
where
  tail (start : Nat) : ScriptParser Tree := do
    let generics ← typeParameters? parse
    let parameters ← parameters parse
    expect "=>"
    let result ← parse (.type true)
    finish .otherType start (generics ++ [parameters, result])

/-- A type, perhaps conditional. -/
def type (allowConditional : Bool) : ScriptParser Tree := do
  if let some type ← functionType? parse then return type
  let start ← here
  let checked ← unionType parse allowConditional
  if allowConditional && (← isNextWord "extends") && !(← token).afterBreak then
    advance
    let bound ← parse (.type false)
    expect "?"
    let yes ← parse (.type true)
    expect ":"
    let no ← parse (.type true)
    finish .otherType start [checked, bound, yes, no]
  else return checked

end ComponentAnalysis.Script
