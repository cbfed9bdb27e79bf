import ComponentAnalysis.Script.Declarations

/-! Parsers of statements. -/
namespace ComponentAnalysis.Script

open ScriptParser

variable (parse : Grammar) (inFunction : Bool)

/-- An expression between parentheses, as the head of a statement. -/
def condition : ScriptParser Tree := do
  expect "("
  let value ← parse (.expression true)
  expect ")"
  return value

def block : ScriptParser Tree := do
  let start ← here
  expect "\x7b"
  let statements ← repeatUntil "\x7d" (parse (.statement inFunction))
  finish .block start statements

def ifStatement : ScriptParser Tree := do
  let start ← here
  expectWord "if"
  let test ← condition parse
  let yes ← parse (.statement inFunction)
  let no ← if ← eatWord "else" then pure [← parse (.statement inFunction)] else pure []
  finish .ifStatement start ([test, yes] ++ no)

def whileStatement : ScriptParser Tree := do
  let start ← here
  expectWord "while"
  let test ← condition parse
  let body ← parse (.statement inFunction)
  finish .whileStatement start [test, body]

def doStatement : ScriptParser Tree := do
  let start ← here
  expectWord "do"
  let body ← parse (.statement inFunction)
  expectWord "while"
  let test ← condition parse
  let _ ← eat ";"
  finish .doStatement start [body, test]

/-- What stands first in the head of a loop. -/
def loopHead : ScriptParser (List Tree) := do
  if ← isNext ";" then return []
  let start ← here
  match ← variableKeyword? with
  | some kind => return [← variablesFrom parse start kind false]
  | none => return [← parse (.expression false)]

def forStatement : ScriptParser Tree := do
  let start ← here
  expectWord "for"
  let _ ← eatWord "await"
  expect "("
  let head ← loopHead parse
  if !head.isEmpty && ((← isNextWord "of") || (← isNextWord "in")) then
    let kind := if ← isNextWord "of" then Kind.forOfStatement else .forInStatement
    advance
    let values ← parse (.expression true)
    expect ")"
    let body ← parse (.statement inFunction)
    finish kind start (head ++ [values, body])
  else
    ensure (head.all fun t =>
      match t.kind with
      | .variableStatement _ => t.children.all hasNeededValue
      | _ => true)
    expect ";"
    let test ← if ← isNext ";" then pure [] else pure [← parse (.expression true)]
    expect ";"
    let next ← if ← isNext ")" then pure [] else pure [← parse (.expression true)]
    expect ")"
    let body ← parse (.statement inFunction)
    finish .forStatement start (head ++ test ++ next ++ [body])

/-- A statement of a word with an optional expression on the same line. -/
def wordStatement (word : String) (kind : Kind) : ScriptParser Tree := do
  let start ← here
  expectWord word
  let token ← token
  let ends := token.afterBreak || token.lexeme == .endOfInput || isPunctuator token ";" ||
    isPunctuator token "\x7d"
  let value ← if ends then pure [] else pure [← parse (.expression true)]
  semicolon
  finish kind start value

/-- A `throw` with its expression, which starts on the same line. -/
def throwStatement : ScriptParser Tree := do
  let start ← here
  expectWord "throw"
  ensure !(← token).afterBreak
  let value ← parse (.expression true)
  semicolon
  finish .throwStatement start [value]

/-- A statement of a word with an optional label on the same line. -/
def jumpStatement (word : String) (kind : Kind) : ScriptParser Tree := do
  let start ← here
  expectWord word
  let token ← token
  let label ← if isVariableName token && !token.afterBreak then pure [← itemName] else pure []
  semicolon
  finish kind start label

def catchClause : ScriptParser Tree := do
  let start ← here
  expectWord "catch"
  let paramStart := (← following).start
  let parameter ←
    if ← eat "(" then do
      let pattern ← parse .pattern
      let ascription ← ascription? parse
      let parameter ← finish .catchParameter paramStart (pattern :: ascription)
      expect ")"
      pure [parameter]
    else pure []
  let body ← block parse inFunction
  finish .catchClause start (parameter ++ [body])

def tryStatement : ScriptParser Tree := do
  let start ← here
  expectWord "try"
  let body ← block parse inFunction
  let handler ← if ← isNextWord "catch" then pure [← catchClause parse inFunction] else pure []
  let final ← if ← eatWord "finally" then pure [← block parse inFunction] else pure []
  ensure (!handler.isEmpty || !final.isEmpty)
  finish .tryStatement start (body :: handler ++ final)

def switchCase : ScriptParser Tree := do
  let start ← here
  let test ←
    if ← eatWord "default" then pure []
    else do
      expectWord "case"
      pure [← parse (.expression true)]
  expect ":"
  let statements ← many do
    if (← isNextWord "case") || (← isNextWord "default") || (← isNext "\x7d") then return none
    return some (← parse (.statement inFunction))
  finish .switchCase start (test ++ statements)

def switchStatement : ScriptParser Tree := do
  let start ← here
  expectWord "switch"
  let value ← condition parse
  expect "\x7b"
  let cases ← repeatUntil "\x7d" (switchCase parse inFunction)
  finish .switchStatement start (value :: cases)

def withStatement : ScriptParser Tree := do
  let start ← here
  expectWord "with"
  let value ← condition parse
  let body ← parse (.statement inFunction)
  finish .withStatement start [value, body]

/-- A class with decorators, or its export. -/
def decoratedStatement : ScriptParser Tree := do
  let start ← here
  let decorators ← decorators parse
  if ← isNextWord "export" then
    advance
    let isDefault ← eatWord "default"
    let _ ← eatWord "abstract"
    let value ← classFrom parse start .classDefinition decorators
    finish (if isDefault then .exportDefault else .exportNamed) start [value]
  else
    let _ ← eatWord "declare"
    let _ ← eatWord "abstract"
    classFrom parse start .classDefinition decorators

/-- An expression as a statement, or a statement with a label. -/
def plainStatement : ScriptParser Tree := do
  let start ← here
  if isVariableName (← token) && isPunctuator (← following) ":" then
    let label ← itemName
    expect ":"
    let body ← parse (.statement inFunction)
    finish .labeledStatement start [label, body]
  else
    let value ← parse (.expression true)
    semicolon
    finish .expressionStatement start [value]

/-- A statement that starts with one of the words for control flow, if one is next. -/
def controlStatement? : ScriptParser (Option Tree) := do
  let token ← token
  let is := isWord token
  if is "if" then return some (← ifStatement parse inFunction)
  if is "for" then return some (← forStatement parse inFunction)
  if is "while" then return some (← whileStatement parse inFunction)
  if is "do" then return some (← doStatement parse inFunction)
  if is "return" then
    ensure inFunction
    return some (← wordStatement parse "return" .returnStatement)
  if is "throw" then return some (← throwStatement parse)
  if is "break" then return some (← jumpStatement "break" .breakStatement)
  if is "continue" then return some (← jumpStatement "continue" .continueStatement)
  if is "try" then return some (← tryStatement parse inFunction)
  if is "switch" then return some (← switchStatement parse inFunction)
  if is "with" then return some (← withStatement parse inFunction)
  if is "debugger" then return some (← jumpStatement "debugger" .debuggerStatement)
  return none

/-- A statement other than an import or export. -/
def statement (isAmbient : Bool) : ScriptParser Tree := do
  if ← isNext "\x7b" then return ← block parse inFunction
  if ← isNext ";" then return ← leaf .emptyStatement
  if ← isNext "@" then return ← decoratedStatement parse
  if let some control ← controlStatement? parse inFunction then return control
  if let some declaration ← declaration? parse isAmbient then return declaration
  plainStatement parse inFunction

/-- A statement where imports and exports may stand. -/
def item (isAmbient : Bool) : ScriptParser Tree := do
  let start ← here
  let after ← following
  if (← isNextWord "import") && !isPunctuator after "(" && !isPunctuator after "." then
    importFrom parse start
  else if ← isNextWord "export" then exportFrom parse start isAmbient
  else statement parse false isAmbient

end ComponentAnalysis.Script
