import ComponentAnalysis.Digest
import ComponentAnalysis.Table
import ComponentAnalysis.Text.Blank
import ComponentAnalysis.Text.Search

/-! Expressions that a style takes from its component through `v-bind(...)`. -/
namespace ComponentAnalysis.StyleVariables

/-- What opens the use of an expression. -/
def opening : List Char := "v-bind(".toList

def isQuote (c : Char) : Bool := c == '"' || c == '\''

/-- The expression between the parentheses, without the blanks and then the quotes around it. -/
def clean (text : List Char) : List Char := Text.trim isQuote (Text.trim Text.isBlank text)

/-- The texts between `v-bind(` and the next closing parenthesis. One that is not closed ends the
search. -/
def rawUses (css : List Char) : List (List Char) :=
  match h : Text.cut? opening css with
  | none => []
  | some (_, after) =>
    match h' : Text.cut? [')'] after with
    | none => []
    | some (raw, rest) =>
      have := Text.cut?_length h
      have := Text.cut?_length h'
      raw :: rawUses rest
termination_by css.length
decreasing_by
  simp at *
  omega

/-- The expressions that a style uses, each once, in order of first use. -/
def expressions (css : String) : List String :=
  ((rawUses css.toList).map clean).filter (fun e => !e.isEmpty) |>.map String.ofList |>.eraseDups

/-- The variable of each expression that a style of a component uses. -/
def bindings (component css : String) : Table String :=
  .ofList ((expressions css).map fun e => (e, Digest.styleVariable component e))

end ComponentAnalysis.StyleVariables
