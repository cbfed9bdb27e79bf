import ComponentAnalysis.Text.Bytes

/-! Spans of source text. -/
namespace ComponentAnalysis

/-- The bytes of a source from `start` up to `stop`, not including `stop`. -/
structure Span where
  start : Nat := 0
  stop : Nat := 0
  deriving DecidableEq, Repr, Inhabited

namespace Span

/-- Whether `inner` lies within `outer`. -/
def Within (inner outer : Span) : Prop := outer.start ≤ inner.start ∧ inner.stop ≤ outer.stop

instance (inner outer : Span) : Decidable (inner.Within outer) :=
  inferInstanceAs (Decidable (_ ∧ _))

/-- The span without its first and last byte, where the delimiters of a quoted literal stand. It is
empty when the literal is too short to have both. -/
def inner (span : Span) : Span := ⟨span.start + 1, max (span.stop - 1) (span.start + 1)⟩

/-- The text of a span, or the empty text when the span does not fit the source. -/
def text (span : Span) (source : String) : String :=
  match Text.slice? span.start span.stop source.toList with
  | some chars => String.ofList chars
  | none => ""

end Span

end ComponentAnalysis
