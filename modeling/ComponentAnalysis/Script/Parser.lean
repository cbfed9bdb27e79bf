import ComponentAnalysis.Script.Token
import ComponentAnalysis.Tree.Basic

/-! Parsers over the tokens of a script. A parser that fails leaves no trace, so an alternative can
be tried from the same place. -/
namespace ComponentAnalysis.Script

/-- The next token, with the end of the token before it and of the whole source. -/
structure Cursor where
  token : Token
  lastStop : Nat
  sourceStop : Nat

/-- Number of bytes from the next token on. -/
def Cursor.remaining (cursor : Cursor) : Nat := cursor.sourceStop - cursor.token.start

/-- A parser either fails or gives a value and the place after it. -/
abbrev ScriptParser (α : Type) := StateT Cursor Option α

namespace ScriptParser

variable {α : Type}

def token : ScriptParser Token := fun cursor => some (cursor.token, cursor)

def following : ScriptParser Token := fun cursor => some (cursor.token.next, cursor)

def here : ScriptParser Nat := fun cursor => some (cursor.token.start, cursor)

def advance : ScriptParser Unit := fun cursor =>
  some ((), { cursor with token := cursor.token.next, lastStop := cursor.token.stop })

/-- Read the next token in another way. -/
def replaceToken (token : Token) : ScriptParser Unit :=
  fun cursor => some ((), { cursor with token })

/-- A parser that does not consume anything. -/
def lookAhead (p : ScriptParser α) : ScriptParser α :=
  fun cursor => (p cursor).map fun (a, _) => (a, cursor)

/-- The value of a parser if it succeeds; otherwise nothing is consumed. -/
def attempt (p : ScriptParser α) : ScriptParser (Option α) := fun cursor =>
  match p cursor with
  | some (a, cursor) => some (some a, cursor)
  | none => some (none, cursor)

/-- Fail unless a condition holds. -/
def ensure (condition : Bool) : ScriptParser Unit := if condition then pure () else failure

def isPunctuator (token : Token) (text : String) : Bool := token.lexeme == .punctuator text

def isWord (token : Token) (text : String) : Bool := token.lexeme == .word text false

def isAnyWord (token : Token) : Bool :=
  match token.lexeme with
  | .word _ _ => true
  | _ => false

def isNext (text : String) : ScriptParser Bool := return isPunctuator (← token) text

def isNextWord (text : String) : ScriptParser Bool := return isWord (← token) text

def eat (text : String) : ScriptParser Bool := do
  if ← isNext text then
    advance
    return true
  return false

def eatWord (text : String) : ScriptParser Bool := do
  if ← isNextWord text then
    advance
    return true
  return false

def expect (text : String) : ScriptParser Unit := do ensure (← eat text)

def expectWord (text : String) : ScriptParser Unit := do ensure (← eatWord text)

/-- The node over what was read since `start`. -/
def finish (kind : Kind) (start : Nat) (children : List Tree) : ScriptParser Tree := fun cursor =>
  some (.node kind ⟨start, cursor.lastStop⟩ children, cursor)

/-- A node without children over the next token. -/
def leaf (kind : Kind) : ScriptParser Tree := do
  let start ← here
  advance
  finish kind start []

/-- The end of a statement: a semicolon, or a place where none is needed. -/
def semicolon : ScriptParser Unit := do
  if ← eat ";" then return
  let token ← token
  ensure (token.afterBreak || isPunctuator token "\x7d" || token.lexeme == .endOfInput)

/-- Repeat a parser until it gives nothing. It also ends where nothing was consumed. -/
def many (p : ScriptParser (Option α)) (cursor : Cursor) : Option (List α × Cursor) :=
  match p cursor with
  | none => none
  | some (none, after) => some ([], after)
  | some (some a, after) =>
    if after.remaining < cursor.remaining then
      (many p after).map fun (as, last) => (a :: as, last)
    else some ([a], after)
termination_by cursor.remaining

/-- Repeat a step on a value until it gives nothing. It also ends where nothing was consumed. -/
def iterate (step : α → ScriptParser (Option α)) (a : α) (cursor : Cursor) : Option (α × Cursor) :=
  match step a cursor with
  | none => none
  | some (none, after) => some (a, after)
  | some (some b, after) =>
    if after.remaining < cursor.remaining then iterate step b after else some (b, after)
termination_by cursor.remaining

/-- Items separated by commas up to a closing punctuator, which is consumed. A comma may stand
before it. -/
def listUntil (close : String) (item : ScriptParser α) : ScriptParser (List α) := do
  let items ← many do
    if ← isNext close then return none
    let a ← item
    if !(← isNext close) then expect ","
    return some a
  expect close
  return items

/-- Items up to a closing punctuator, which is consumed. -/
def repeatUntil (close : String) (item : ScriptParser α) : ScriptParser (List α) := do
  let items ← many do
    if ← isNext close then return none
    return some (← item)
  expect close
  return items

end ScriptParser

end ComponentAnalysis.Script
