import ComponentAnalysis.Script.Token
import Mathlib.Data.List.TakeDrop

/-! How much text tokens cover. A token covers text unless the input ends or is malformed there, and
tokens stand one behind the other. -/
namespace ComponentAnalysis

/-- Every character has at least one byte. -/
theorem Text.byteLength_pos {text : List Char} (h : text ≠ []) : 0 < Text.byteLength text := by
  cases text with
  | nil => exact absurd rfl h
  | cons c rest => exact Nat.add_pos_left c.utf8Size_pos _

namespace Script

/-- Number of bytes that the text of a lexeme has at least. -/
def Lexeme.leastLength : Lexeme → Nat
  | .endOfInput | .invalid => 0
  | .templatePart _ opens => if opens then 3 else 2
  | _ => 1

/-- The texts of the punctuators are not empty. -/
theorem byteLength_pos_of_mem_punctuators {text : String}
    (h : text ∈ punctuators ∨ text ∈ angleOperators) : 0 < Text.byteLength text.toList := by
  apply Text.byteLength_pos
  rcases h with h | h
  · revert text
    decide
  · revert text
    decide

/-- A text that matches is one of those that were tried. -/
theorem mem_of_matchFirst? {texts : List String} {input rest : List Char} {text : String}
    (h : matchFirst? texts input = some (text, rest)) : text ∈ texts := by
  obtain ⟨other, hOther, hMatch⟩ := List.exists_of_findSome?_eq_some h
  split at hMatch
  · cases hMatch
    exact hOther
  · cases hMatch

/-- A number that starts has some text. -/
theorem splitNumber_ne_nil {c : Char} {rest : List Char} (h : Reading.startsNumber c rest = true) :
    (splitNumber (c :: rest)).1 ≠ [] := by
  simp only [Reading.startsNumber, Bool.or_eq_true, Bool.and_eq_true, beq_iff_eq] at h
  unfold splitNumber
  extract_lets decimal
  have hDecimal : decimal.1 ≠ [] := by
    simp only [decimal, List.span_eq_takeWhile_dropWhile]
    split
    · simp
    · simp [extend]
    · rename_i hPoint
      have hWhole : (c :: rest).takeWhile isDigitOrSeparator ≠ [] := by
        intro hNil
        have hOther : isDigitOrSeparator c = false := by
          by_contra hPart
          rw [List.takeWhile_cons_of_pos (by simpa using hPart)] at hNil
          cases hNil
        rcases h with hDigit | ⟨rfl, -⟩
        · simp [isDigitOrSeparator, hDigit] at hOther
        · exact hPoint rest (List.dropWhile_cons_of_neg (by simp [hOther]))
      simp [extend, hWhole]
  split
  · split
    · exact List.cons_ne_nil _ _
    · exact hDecimal
  · exact hDecimal

namespace Reading

/-- A reading has enough text for its lexeme. -/
def Solid (reading : Reading) : Prop :=
  reading.lexeme.leastLength ≤ Text.byteLength reading.text

/-- Malformed text needs no length. -/
theorem solid_invalid (input : List Char) : (invalid input).Solid := Nat.zero_le _

/-- A string has its opening quote. -/
theorem solid_ofString (quote : Char) (body : List Char) : (ofString quote body).Solid := by
  unfold ofString
  split
  · exact solid_invalid _
  · split
    · exact Text.byteLength_pos (by simp)
    · exact solid_invalid _

/-- A part of a template has its two marks, of which the closing one may be two characters long. -/
theorem solid_of_ofTemplatePart? {opening : Char} {body : List Char} {reading : Reading}
    (h : ofTemplatePart? opening body = some reading) : reading.Solid := by
  obtain ⟨⟨opens, text, rest⟩, -, rfl⟩ := Option.map_eq_some_iff.mp h
  have hOpening := opening.utf8Size_pos
  have hEnd : Text.byteLength (templateEnd opens) = if opens then 2 else 1 := by
    cases opens <;> decide
  simp only [Solid, Lexeme.leastLength, Text.byteLength_append, Text.byteLength, hEnd]
  split <;> omega

/-- A regular expression has its opening slash. -/
theorem solid_of_ofRegex? {body : List Char} {reading : Reading}
    (h : ofRegex? body = some reading) : reading.Solid := by
  obtain ⟨⟨pattern, rest⟩, -, rfl⟩ := Option.map_eq_some_iff.mp h
  exact Text.byteLength_pos (by simp)

theorem solid_ofPrivateWord (body : List Char) : (ofPrivateWord body).Solid := by
  unfold ofPrivateWord
  simp only
  split
  · split
    · exact solid_invalid _
    · exact Text.byteLength_pos (by simp)
  · exact solid_invalid _

/-- A word starts with a character of its own, or it is malformed. -/
theorem solid_ofWord (input : List Char) : (ofWord input).Solid := by
  unfold ofWord
  simp only
  split
  · split
    · exact solid_invalid _
    · rename_i hText
      exact Text.byteLength_pos (by simpa using hText)
  · exact solid_invalid _

/-- A number is read only where one starts. -/
theorem solid_ofNumber {c : Char} {rest : List Char} (h : startsNumber c rest = true) :
    (ofNumber (c :: rest)).Solid := by
  have hText := Text.byteLength_pos (splitNumber_ne_nil h)
  unfold ofNumber
  simp only
  split
  · exact solid_invalid _
  · split
    · exact hText
    · exact hText

theorem solid_ofPunctuator (input : List Char) : (ofPunctuator input).Solid := by
  unfold ofPunctuator
  split
  · rename_i text rest hMatch
    have hMem : text ∈ punctuators := by
      unfold matchPunctuator? at hMatch
      split at hMatch
      · split at hMatch
        · cases hMatch
          decide
        · exact mem_of_matchFirst? hMatch
      · exact mem_of_matchFirst? hMatch
    exact byteLength_pos_of_mem_punctuators (Or.inl hMem)
  · exact solid_invalid _

/-- Whatever is read has enough text for its lexeme. -/
theorem solid_ofInput (input : List Char) : (ofInput input).Solid := by
  unfold ofInput
  split
  · exact Nat.zero_le _
  · exact solid_ofString _ _
  · exact solid_ofString _ _
  · rename_i body
    cases hPart : ofTemplatePart? '`' body with
    | none => exact solid_invalid _
    | some reading => exact solid_of_ofTemplatePart? hPart
  · exact solid_ofPrivateWord _
  · rename_i c rest _ _ _ _
    split
    · exact solid_ofWord _
    · split
      · rename_i hNumber
        exact solid_ofNumber hNumber
      · exact solid_ofPunctuator _

end Reading

/-- Blanks and comments are skipped forwards. -/
theorem skipTrivia_le {trivia : Trivia} {offset : Nat} {ended : Bool} {input : List Char}
    {rest : List Char} {offset' : Nat} {ended' : Bool}
    (h : skipTrivia trivia offset ended input = some (rest, offset', ended')) :
    offset ≤ offset' := by
  fun_induction skipTrivia trivia offset ended input with
  | case5 | case11 =>
      cases h
      exact Nat.le_refl _
  | case10 => cases h
  | case1 | case2 | case3 | case4 | case6 | case7 | case8 | case9 =>
      rename_i ih
      exact Nat.le_trans (Nat.le_add_right _ _) (ih h)

namespace Token

/-- A token has enough text for its lexeme. -/
abbrev Solid (token : Token) : Prop := token.toReading.Solid

/-- A token with some text covers some of the source. -/
theorem Solid.start_lt_stop {token : Token} (h : token.Solid)
    (hText : 0 < token.lexeme.leastLength) : token.start < token.stop :=
  Nat.lt_add_of_pos_right (Nat.lt_of_lt_of_le hText h)

/-- No token ends before it starts. -/
theorem start_le_stop (token : Token) : token.start ≤ token.stop := Nat.le_add_right _ _

theorem solid_read (offset : Nat) (input : List Char) (ended : Bool) :
    (read offset input ended).Solid := by
  unfold read
  split
  · exact Reading.solid_invalid _
  · exact Reading.solid_ofInput _

/-- A token starts at or behind the place where reading began. -/
theorem le_start_read (offset : Nat) (input : List Char) (ended : Bool) :
    offset ≤ (read offset input ended).start := by
  unfold read
  split
  · exact Nat.le_refl _
  · rename_i hSkip
    exact skipTrivia_le hSkip

theorem solid_next (token : Token) : token.next.Solid := solid_read _ _ _

/-- The next token starts behind this one. -/
theorem stop_le_start_next (token : Token) : token.stop ≤ token.next.start := le_start_read _ _ _

/-- The first token of a source is solid, so all tokens are. -/
theorem solid_first (source : List Char) : (first source).Solid := by
  unfold first
  split
  · exact solid_read _ _ _
  · exact solid_read _ _ _

/-- Another token for the same place in the source. -/
structure Rereads (token other : Token) : Prop where
  start : other.start = token.start
  solid : other.Solid

/-- A closing angle bracket may be joined to what follows it. -/
theorem rereads_widen {token : Token} (h : token.Solid) : token.Rereads token.widen := by
  unfold widen
  split
  · rename_i hMatch
    exact ⟨rfl, byteLength_pos_of_mem_punctuators (Or.inr (mem_of_matchFirst? hMatch))⟩
  · exact ⟨rfl, h⟩

/-- An operator that starts with an angle bracket may be read as the bracket alone. -/
theorem rereads_narrow {token : Token} (h : token.Solid) : token.Rereads token.narrow := by
  unfold narrow
  split
  · exact ⟨rfl, Text.byteLength_pos (by simp [reread])⟩
  · exact ⟨rfl, h⟩

/-- A slash may be read as the start of a regular expression. -/
theorem rereads_of_asRegex? {token other : Token} (h : token.asRegex? = some other) :
    token.Rereads other := by
  unfold asRegex? at h
  split at h
  · obtain ⟨reading, hReading, rfl⟩ := Option.map_eq_some_iff.mp h
    exact ⟨rfl, Reading.solid_of_ofRegex? hReading⟩
  · cases h

/-- A brace may be read as the end of an item in a template. -/
theorem rereads_of_asTemplatePart? {token other : Token} (h : token.asTemplatePart? = some other) :
    token.Rereads other := by
  unfold asTemplatePart? at h
  split at h
  · obtain ⟨reading, hReading, rfl⟩ := Option.map_eq_some_iff.mp h
    exact ⟨rfl, Reading.solid_of_ofTemplatePart? hReading⟩
  · cases h

end Token

end Script

end ComponentAnalysis
