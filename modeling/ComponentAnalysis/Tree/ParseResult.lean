import ComponentAnalysis.Tree.Basic

/-! What a parser makes of a text. Nothing is assumed of parsers: whoever needs the trees of a
program to be laid out in some way says so. -/
namespace ComponentAnalysis

/-- A part of a text that an error points at, in bytes. -/
structure ErrorLabel where
  offset : Nat
  length : Nat
  deriving DecidableEq, Repr

/-- The bytes that a label covers, counted in words of 32 bits. -/
def ErrorLabel.span (label : ErrorLabel) : Span :=
  let start := UInt32.ofNat label.offset
  ⟨start.toNat, (start + UInt32.ofNat label.length).toNat⟩

/-- An error of a parser, with the parts of the text that it points at, the main one first. -/
structure SyntaxError where
  message : String
  labels : List ErrorLabel := []
  deriving DecidableEq, Repr

/-- Where an error is: its first label, or the very start of the text if it has none. -/
def SyntaxError.span (error : SyntaxError) : Span :=
  (error.labels.head?.map ErrorLabel.span).getD {}

/-- What a parser makes of a text. A parser that goes on behind errors has a program beside them. -/
structure ParseResult where
  program : List Tree := []
  /-- The parser gave up. -/
  panicked : Bool := false
  errors : List SyntaxError := []

/-- The program, if the parser got through the text without errors. -/
def ParseResult.program? (result : ParseResult) : Option (List Tree) :=
  if result.panicked || !result.errors.isEmpty then none else some result.program

abbrev Parser := String → ParseResult

end ComponentAnalysis
