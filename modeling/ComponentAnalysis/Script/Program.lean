import ComponentAnalysis.Script.Statements
import ComponentAnalysis.Tree.ParseResult

/-! Parsing a whole script. -/
namespace ComponentAnalysis.Script

open ScriptParser

/-- How a goal is parsed, given how the goals inside it are. -/
def production (parse : Grammar) : Grammar
  | .item isAmbient => item parse isAmbient
  | .statement inFunction => statement parse inFunction false
  | .expression allowIn => expression parse allowIn
  | .assignment allowIn inBranch => assignment parse allowIn inBranch
  | .operand precedence allowIn => operand parse precedence allowIn
  | .unary => unary parse
  | .leftHand => leftHand parse
  | .pattern => bindingPattern parse
  | .type allowConditional => type parse allowConditional
  | .typeOperand => typeOperand parse

/-- The grammar in which goals may be nested up to a depth. -/
def grammar : Nat → Grammar
  | 0, _ => failure
  | depth + 1, goal => production (grammar depth) goal

/-- Goals nested without anything between them come to less than this for each character. -/
def depthPerCharacter : Nat := 16

/-- All items of a script up to its end. -/
def items (depth : Nat) : ScriptParser (List Tree) := do
  let items ← many do
    if (← token).lexeme == .endOfInput then return none
    return some (← grammar depth (.item false))
  ensure ((← token).lexeme == .endOfInput)
  return items

/-- The statements of a script, without the directives at its start; nothing if the script is
malformed. -/
def parse? (source : String) : Option (List Tree) :=
  let chars := source.toList
  let depth := depthPerCharacter * (chars.length + 1)
  (items depth ⟨Token.first chars, 0, Text.byteLength chars⟩).map fun (items, _) =>
    (markDirectives items).filter fun t => t.kind ≠ .directive

/-- Parsing by this grammar. It gives up at the first error and says nothing of it. Mistakes that
only show beyond the grammar, such as `await` outside of an `async` function or `f()++`, are not
found. -/
def parser : Parser := fun source =>
  match parse? source with
  | some program => { program }
  | none => { panicked := true }

end ComponentAnalysis.Script
