import ComponentAnalysis.Script.Expressions

/-! Parsers of declarations, imports and exports. -/
namespace ComponentAnalysis.Script

open ScriptParser

variable (parse : Grammar)

def declarator (kind : VariableKind) (allowIn : Bool) : ScriptParser Tree := do
  let start ← here
  let pattern ← parse .pattern
  let _ ← eat "!"
  let ascription ← ascription? parse
  let value ← initializer? parse allowIn
  finish (.declarator kind) start (pattern :: ascription ++ value)

/-- Declarators after the keyword of a variable statement, without the end of the statement. -/
def variablesFrom (start : Nat) (kind : VariableKind) (allowIn : Bool) : ScriptParser Tree := do
  let declarators ← commaSeparated (declarator parse kind allowIn)
  finish (.variableStatement kind) start declarators

/-- Whether a declarator has the value that it needs: constants, resources and patterns need one. -/
def hasNeededValue (declarator : Tree) : Bool :=
  match declarator with
  | .node (.declarator kind) _ (pattern :: rest) =>
    rest.any (fun t => t.kind ≠ .typeAscription) ||
      ((kind = .var || kind = .lexical) &&
        match pattern.kind with
        | .binding _ => true
        | _ => false)
  | _ => false

def startsPattern (token : Token) : Bool :=
  isVariableName token || isPunctuator token "[" || isPunctuator token "\x7b"

/-- The keyword of a variable statement, which is consumed, if one is next. -/
def variableKeyword? : ScriptParser (Option VariableKind) := do
  let first ← token
  let after ← following
  let isResource := isVariableName after && !after.afterBreak && !isWord after "of" &&
    !isWord after "in"
  if isWord first "var" then
    advance
    return some .var
  else if isWord first "const" && !isWord after "enum" then
    advance
    return some .const
  else if isWord first "let" && startsPattern after then
    advance
    return some .lexical
  else if isWord first "using" && isResource then
    advance
    return some .resource
  else if isWord first "await" && isWord after "using" && !after.afterBreak &&
      isVariableName after.next && !after.next.afterBreak then
    advance
    advance
    return some .asyncResource
  else return none

def enumMember : ScriptParser Tree := do
  let start ← here
  let key ← propertyKey parse
  let value ← initializer? parse true
  finish .enumMember start (key :: value)

def enumFrom (start : Nat) : ScriptParser Tree := do
  expectWord "enum"
  let name ← bindingName
  let bodyStart ← here
  expect "\x7b"
  let members ← listUntil "\x7d" (enumMember parse)
  let body ← finish .enumBody bodyStart members
  finish .enumDeclaration start [name, body]

def interfaceFrom (start : Nat) : ScriptParser Tree := do
  expectWord "interface"
  let name ← bindingName
  let generics ← typeParameters? parse
  let bases ← if ← eatWord "extends" then commaSeparated (heritage parse) else pure []
  let bodyStart ← here
  let members ← signatures parse
  let body ← finish .interfaceBody bodyStart members
  finish .interface start (name :: generics ++ bases ++ [body])

def typeAliasFrom (start : Nat) : ScriptParser Tree := do
  expectWord "type"
  let name ← bindingName
  let generics ← typeParameters? parse
  expect "="
  let type ← parse (.type true)
  semicolon
  finish .typeAlias start (name :: generics ++ [type])

def namespaceBody (isAmbient : Bool) : ScriptParser Tree := do
  let start ← here
  expect "\x7b"
  let items ← repeatUntil "\x7d" (parse (.item isAmbient))
  finish .namespaceBody start items

/-- A namespace from its name on; dots in the name make namespaces inside each other. -/
def namespaceFrom (start : Nat) (isAmbient : Bool) : ScriptParser Tree := do
  let name ←
    match (← token).lexeme with
    | .string value => leaf (.string value)
    | _ => bindingName
  let inner ← many do
    if ← eat "." then return some (← bindingName)
    return none
  if ← isNext "\x7b" then
    let body ← namespaceBody parse isAmbient
    let nested := inner.foldr
      (fun name body => .node .namespaceDeclaration ⟨name.span.start, body.span.stop⟩ [name, body])
      body
    finish .namespaceDeclaration start [name, nested]
  else
    semicolon
    finish .namespaceDeclaration start [name]

/-- A declaration other than an import or export, if one is next. It counts from `start`, where
words in front of it begin. -/
def declarationFrom? (start : Nat) (isAmbient needsName : Bool) : ScriptParser (Option Tree) := do
  let first ← token
  let after ← following
  let sameLine := !after.afterBreak
  if isWord first "function" then return some (← functionFrom parse start .declaration needsName)
  if isWord first "async" && isWord after "function" && sameLine then
    advance
    return some (← functionFrom parse start .declaration needsName)
  if isWord first "class" then return some (← classFrom parse start .classDefinition [])
  if isWord first "abstract" && isWord after "class" && sameLine then
    advance
    return some (← classFrom parse start .classDefinition [])
  if isWord first "enum" then return some (← enumFrom parse start)
  if isWord first "const" && isWord after "enum" then
    advance
    return some (← enumFrom parse start)
  if isWord first "interface" && isVariableName after && sameLine then
    return some (← interfaceFrom parse start)
  if isWord first "type" && isVariableName after && sameLine then
    return some (← typeAliasFrom parse start)
  if (isWord first "namespace" || isWord first "module") && sameLine && isVariableName after then
    advance
    return some (← namespaceFrom parse start isAmbient)
  if let .string _ := after.lexeme then
    if isWord first "module" && sameLine then
      advance
      return some (← namespaceFrom parse start isAmbient)
  if isWord first "global" && isPunctuator after "\x7b" then
    return some (← namespaceFrom parse start isAmbient)
  match ← variableKeyword? with
  | some kind => do
    let statement ← variablesFrom parse start kind true
    ensure (isAmbient || statement.children.all hasNeededValue)
    semicolon
    return some (← finish statement.kind start statement.children)
  | none => return none

def declarableWords : List String :=
  ["const", "let", "var", "function", "async", "class", "abstract", "enum", "interface", "type",
   "namespace", "module", "global", "using", "await"]

/-- A declaration, perhaps with `declare` in front. -/
def declaration? (isAmbient : Bool) : ScriptParser (Option Tree) := do
  let start ← here
  let after ← following
  if (← isNextWord "declare") && !after.afterBreak && declarableWords.any (isWord after) then
    advance
    declarationFrom? parse start true true
  else declarationFrom? parse start isAmbient true

/-- The name of an imported or exported item: a word or a string. -/
def moduleItemName : ScriptParser Tree := stringNode <|> itemName

/-- The name of a module after `from`, with the attributes behind it. -/
def fromModule : ScriptParser (List Tree) := do
  let module ← stringNode
  let token ← token
  if isWord token "with" || (isWord token "assert" && !token.afterBreak) then
    advance
    let start ← here
    expect "\x7b"
    let _ ← listUntil "\x7d" do
      let _ ← moduleItemName
      expect ":"
      stringNode
    return [module, ← finish .attribute start []]
  return [module]

/-- Whether `type` is a mark in front of the item of a list, rather than the item's own name. -/
def atTypeMark : ScriptParser Bool := do
  let after ← following
  let second := after.next
  let isName (token : Token) : Bool :=
    match token.lexeme with
    | .word _ _ | .string _ => true
    | _ => false
  if !(← isNextWord "type") || !isName after then return false
  if !isWord after "as" then return true
  if !isName second then return true
  return isWord second "as" && isName second.next

def importSpecifier : ScriptParser Tree := do
  let start ← here
  let isType ← atTypeMark
  if isType then advance
  let first ← token
  let name ← moduleItemName
  if ← eatWord "as" then
    let localName ← bindingName
    finish (.importNamed isType) start [name, localName]
  else
    ensure (isVariableName first)
    let .name text := name.kind | failure
    finish (.importNamed isType) start [name, .node (.binding text) name.span []]

/-- The names that an import brings in, up to the name of the module. -/
def importClause : ScriptParser (List Tree) := do
  let start ← here
  let defaultItem ←
    if isAnyWord (← token) then do
      let name ← bindingName
      pure [← finish .importDefault start [name]]
    else pure []
  if !defaultItem.isEmpty && !(← eat ",") then return defaultItem
  let start ← here
  if ← eat "*" then
    expectWord "as"
    let name ← bindingName
    return defaultItem ++ [← finish .importNamespace start [name]]
  expect "\x7b"
  return defaultItem ++ (← listUntil "\x7d" importSpecifier)

/-- An import of a value under another name, from its name on. -/
def importEquals (start : Nat) : ScriptParser Tree := do
  let name ← bindingName
  expect "="
  let value ← parse .leftHand
  semicolon
  finish .importEquals start [name, value]

/-- Whether a word is a mark in front of what an import brings in, rather than a name itself. -/
def marksImport (mark : String) (first after : Token) : Bool :=
  isWord first mark && (isPunctuator after "\x7b" || isPunctuator after "*" ||
    (isAnyWord after && (!isWord after "from" || isWord after.next "from" ||
      isPunctuator after.next "=")))

def importFrom (start : Nat) : ScriptParser Tree := do
  expectWord "import"
  if let .string _ := (← token).lexeme then
    let module ← fromModule
    semicolon
    return ← finish (.importDeclaration false) start module
  let isType := marksImport "type" (← token) (← following)
  let isPhase := marksImport "defer" (← token) (← following) ||
    marksImport "source" (← token) (← following)
  if isType || isPhase then advance
  if isVariableName (← token) && isPunctuator (← following) "=" then
    return ← importEquals parse start
  let names ← importClause
  expectWord "from"
  let module ← fromModule
  semicolon
  finish (.importDeclaration isType) start (names ++ module)

def exportSpecifier : ScriptParser Tree := do
  let start ← here
  if ← atTypeMark then advance
  let name ← moduleItemName
  let exported ← if ← eatWord "as" then pure [← moduleItemName] else pure []
  finish .exportSpecifier start (name :: exported)

def exportList (start : Nat) : ScriptParser Tree := do
  expect "\x7b"
  let items ← listUntil "\x7d" exportSpecifier
  let module ← if ← eatWord "from" then fromModule else pure []
  semicolon
  finish .exportNamed start (items ++ module)

/-- The rest of an export of everything in a module. -/
def exportAll (start : Nat) : ScriptParser Tree := do
  expect "*"
  let name ← if ← eatWord "as" then pure [← moduleItemName] else pure []
  expectWord "from"
  let module ← fromModule
  semicolon
  finish .exportAll start (name ++ module)

/-- What an export makes the default of its module. -/
def exportDefault (start : Nat) : ScriptParser Tree := do
  expectWord "default"
  let declStart ← here
  let first ← token
  let after ← following
  let sameLine := !after.afterBreak
  if isPunctuator first "@" then
    let decorators ← decorators parse
    let _ ← eatWord "abstract"
    let value ← classFrom parse declStart .classDefinition decorators
    finish .exportDefault start [value]
  else if isWord first "function" || isWord first "class" ||
      (isWord first "async" && isWord after "function" && sameLine) ||
      (isWord first "abstract" && isWord after "class" && sameLine) ||
      (isWord first "interface" && isVariableName after && sameLine) then
    let some value ← declarationFrom? parse declStart false false | failure
    finish .exportDefault start [value]
  else
    let value ← parse (.assignment true false)
    semicolon
    finish .exportDefault start [value]

def exportFrom (start : Nat) (isAmbient : Bool) : ScriptParser Tree := do
  expectWord "export"
  let first ← token
  let after ← following
  if isWord first "default" then exportDefault parse start
  else if isPunctuator first "=" then
    advance
    let value ← parse (.expression true)
    semicolon
    finish .exportAssignment start [value]
  else if isWord first "as" && isWord after "namespace" then
    advance
    advance
    let name ← itemName
    semicolon
    finish .namespaceExport start [name]
  else if isPunctuator first "*" then exportAll start
  else if isPunctuator first "\x7b" then exportList start
  else if isWord first "type" && isPunctuator after "*" then
    advance
    exportAll start
  else if isWord first "type" && isPunctuator after "\x7b" then
    advance
    exportList start
  else if isWord first "import" then
    let inner ← here
    advance
    let _ ← if marksImport "type" (← token) (← following) then advance
    let value ← importEquals parse inner
    finish .exportNamed start [value]
  else
    let inner ← here
    let decorators ← decorators parse
    if decorators.isEmpty then
      let some value ← declaration? parse isAmbient | failure
      finish .exportNamed start [value]
    else
      let _ ← eatWord "abstract"
      let value ← classFrom parse inner .classDefinition decorators
      finish .exportNamed start [value]

end ComponentAnalysis.Script
