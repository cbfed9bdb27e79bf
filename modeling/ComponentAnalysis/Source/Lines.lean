import ComponentAnalysis.Source.Span

/-! Lines and columns of byte offsets. -/
namespace ComponentAnalysis

/-- A span together with the line and column of its start, both counted from one. Columns count
characters, not bytes. -/
structure Location where
  start : Nat := 0
  stop : Nat := 0
  line : Nat := 0
  column : Nat := 0
  deriving DecidableEq, Repr, Inhabited

/-- Where the lines of a source start, each after a newline, the first line at zero. -/
def lineStarts (source : List Char) : List Nat :=
  0 :: go 0 source
where
  go (offset : Nat) : List Char → List Nat
    | [] => []
    | c :: rest =>
      let next := offset + c.utf8Size
      if c = '\n' then next :: go next rest else go next rest

/-- The last of the line starts up to an offset, with its position in the list. -/
def lastStart (offset : Nat) (starts : List Nat) : Nat × Nat :=
  go 0 0 starts
where
  go (line start : Nat) : List Nat → Nat × Nat
    | [] => (line - 1, start)
    | s :: rest => if s ≤ offset then go (line + 1) s rest else (line - 1, start)

/-- The line and column of a span in a source. An offset past the end counts as the end. The column
of an offset inside a character counts bytes. -/
def locate (source : String) (span : Span) : Location :=
  let chars := source.toList
  let offset := min span.start (Text.byteLength chars)
  let (line, start) := lastStart offset (lineStarts chars)
  let column := match Text.slice? start offset chars with
    | some before => before.length
    | none => offset - start
  ⟨span.start, span.stop, line + 1, column + 1⟩

def lineCount (source : String) : Nat := (lineStarts source.toList).length

end ComponentAnalysis
