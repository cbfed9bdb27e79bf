import ComponentAnalysis.Proofs.Text.Utf8
import ComponentAnalysis.Source.Lines
import Mathlib.Data.List.DropRight
import Mathlib.Data.Prod.Lex

/-! Lines and columns of byte offsets. The line of an offset counts the newlines in the bytes before
it; the column of an offset between two characters counts the characters behind the last of these
newlines. Of two such offsets, the later one has the later place. -/
namespace ComponentAnalysis

/-- The one byte of a newline. -/
def newlineByte : UInt8 := UInt8.ofNat '\n'.toNat

/-- How many of the first bytes of a text are newlines. -/
def newlinesBefore (offset : Nat) (text : List Char) : Nat :=
  ((Text.utf8 text).take offset).count newlineByte

/-- The characters of a text behind its last newline. -/
def lastLine (text : List Char) : List Char := text.rtakeWhile (· ≠ '\n')

/-- The lines of a text before the last one, with their newlines. -/
def earlierLines (text : List Char) : List Char := text.rdropWhile (· ≠ '\n')

/-- The line and the column of an offset in a text, both counted from one. Between the bytes of a
character there is no column. -/
structure IsPlaceOf (text : List Char) (offset line column : Nat) : Prop where
  line_eq : line = 1 + newlinesBefore offset text
  column_eq : ∀ before after, text = before ++ after → Text.byteLength before = offset →
    column = 1 + (lastLine before).length

/-- Of a list of line starts, the one at position `line` is the last that is not behind an
offset. -/
structure IsLastStart (starts : List Nat) (offset line start : Nat) : Prop where
  getElem? : starts[line]? = some start
  le : start ≤ offset
  lt : ∀ later ∈ starts.drop (line + 1), offset < later

namespace IsLastStart

variable {starts : List Nat} {offset line start : Nat}

/-- There is one last start up to an offset at most. -/
theorem unique {line' start' : Nat} (h : IsLastStart starts offset line start)
    (h' : IsLastStart starts offset line' start') : line = line' ∧ start = start' := by
  have hNot : ∀ {i j s t : Nat}, IsLastStart starts offset i s → IsLastStart starts offset j t →
      ¬ i < j := by
    intro i j s t hi hj hLt
    have hLater : t ∈ starts.drop (i + 1) := by
      refine List.mem_of_getElem? (i := j - (i + 1)) ?_
      rw [List.getElem?_drop, Nat.add_sub_cancel' hLt]
      exact hj.getElem?
    exact Nat.lt_irrefl _ (Nat.lt_of_lt_of_le (hi.lt t hLater) hj.le)
  have hLine : line = line' := by
    have hLeft := hNot h h'
    have hRight := hNot h' h
    omega
  subst hLine
  exact ⟨rfl, Option.some.inj (h.getElem?.symm.trans h'.getElem?)⟩

/-- A line of the list without its first start is the next line of the list. -/
theorem cons (first : Nat) (h : IsLastStart starts offset line start) :
    IsLastStart (first :: starts) offset (line + 1) start :=
  ⟨h.getElem?, h.le, h.lt⟩

end IsLastStart

/-! The last line of a text. -/

/-- A text is its last line and those before it. -/
theorem earlierLines_append_lastLine (text : List Char) :
    earlierLines text ++ lastLine text = text :=
  List.rdropWhile_append_rtakeWhile

theorem count_lastLine (text : List Char) : (lastLine text).count '\n' = 0 :=
  List.count_eq_zero.mpr fun hMem => by simpa using List.mem_rtakeWhile_imp hMem

/-- The earlier lines end with a newline, if there are any. -/
theorem earlierLines_eq_nil_or (text : List Char) :
    earlierLines text = [] ∨ ∃ lines, earlierLines text = lines ++ ['\n'] := by
  rcases List.eq_nil_or_concat (earlierLines text) with hNil | ⟨lines, c, hConcat⟩
  · exact Or.inl hNil
  · refine Or.inr ⟨lines, ?_⟩
    have hSome : earlierLines text ≠ [] := by simp [hConcat]
    have hLast : (earlierLines text).getLast hSome = '\n' := by
      by_contra hOther
      exact List.rdropWhile_last_not (· ≠ '\n') text hSome (decide_eq_true hOther)
    simp only [hConcat, List.concat_eq_append, List.getLast_append_singleton] at hLast
    rw [hConcat, List.concat_eq_append, hLast]

/-- Characters other than newlines go on with the last line. -/
theorem lastLine_append {middle : List Char} (before : List Char) (h : '\n' ∉ middle) :
    lastLine (before ++ middle) = lastLine before ++ middle := by
  have hAll : ∀ c ∈ middle.reverse, (decide (c ≠ '\n')) = true := by
    intro c hc
    rw [List.mem_reverse] at hc
    exact decide_eq_true fun hEq => h (hEq ▸ hc)
  rw [lastLine, List.rtakeWhile, List.reverse_append, List.takeWhile_append_of_pos hAll,
    List.reverse_append, List.reverse_reverse]
  rfl

/-! Where lines start. -/

theorem lineStarts_go_append (base : Nat) (a b : List Char) :
    lineStarts.go base (a ++ b) =
      lineStarts.go base a ++ lineStarts.go (base + Text.byteLength a) b := by
  induction a generalizing base with
  | nil => rfl
  | cons c a ih =>
      simp only [List.cons_append, lineStarts.go, Text.byteLength, ih, Nat.add_assoc]
      split <;> rfl

/-- The lines of two texts start where those of the first do and then where those of the second do
behind it. -/
theorem lineStarts_append (a b : List Char) :
    lineStarts (a ++ b) = lineStarts a ++ lineStarts.go (Text.byteLength a) b := by
  rw [lineStarts, lineStarts_go_append, Nat.zero_add]
  rfl

theorem lt_of_mem_lineStarts_go {base start : Nat} {text : List Char}
    (h : start ∈ lineStarts.go base text) : base < start := by
  induction text generalizing base with
  | nil => cases h
  | cons c text ih =>
      have hNext : base < base + c.utf8Size := Nat.lt_add_of_pos_right c.utf8Size_pos
      rw [lineStarts.go] at h
      split at h
      · rcases List.mem_cons.mp h with rfl | h
        · exact hNext
        · exact Nat.lt_trans hNext (ih h)
      · exact Nat.lt_trans hNext (ih h)

theorem pairwise_lineStarts_go (base : Nat) (text : List Char) :
    (lineStarts.go base text).Pairwise (· < ·) := by
  induction text generalizing base with
  | nil => exact List.Pairwise.nil
  | cons c text ih =>
      rw [lineStarts.go]
      split
      · exact List.pairwise_cons.mpr ⟨fun _ => lt_of_mem_lineStarts_go, ih _⟩
      · exact ih _

/-- Lines start one behind the other. -/
theorem pairwise_lineStarts (text : List Char) : (lineStarts text).Pairwise (· < ·) :=
  List.pairwise_cons.mpr ⟨fun _ => lt_of_mem_lineStarts_go, pairwise_lineStarts_go 0 text⟩

theorem length_lineStarts_go (base : Nat) (text : List Char) :
    (lineStarts.go base text).length = text.count '\n' := by
  induction text generalizing base with
  | nil => rfl
  | cons c text ih =>
      rw [lineStarts.go, List.count_cons]
      split <;> simp_all

/-- There is one line more than there are newlines. -/
theorem length_lineStarts (text : List Char) :
    (lineStarts text).length = text.count '\n' + 1 :=
  congrArg (· + 1) (length_lineStarts_go 0 text)

/-! Newlines among the bytes of a text. -/

/-- A newline is one byte. -/
theorem utf8EncodeChar_newline : String.utf8EncodeChar '\n' = [newlineByte] :=
  Text.utf8EncodeChar_of_isAscii (by decide)

/-- No other character has that byte. -/
theorem newlineByte_notMem {c : Char} (h : c ≠ '\n') :
    newlineByte ∉ String.utf8EncodeChar c :=
  fun hMem => h (Text.eq_of_mem_utf8EncodeChar (by decide) hMem).symm

/-- A newline at the start of a text counts for all offsets behind it. -/
theorem newlinesBefore_newline (offset : Nat) (text : List Char) :
    newlinesBefore (offset + 1) ('\n' :: text) = newlinesBefore offset text + 1 := by
  rw [newlinesBefore, Text.utf8_cons, utf8EncodeChar_newline, List.singleton_append,
    List.take_succ_cons, List.count_cons_self]
  rfl

/-- Other characters count for nothing. -/
theorem newlinesBefore_cons {c : Char} (h : c ≠ '\n') (offset : Nat) (text : List Char) :
    newlinesBefore offset (c :: text) = newlinesBefore (offset - c.utf8Size) text := by
  have hNone : ((String.utf8EncodeChar c).take offset).count newlineByte = 0 :=
    List.count_eq_zero.mpr fun hMem => newlineByte_notMem h (List.mem_of_mem_take hMem)
  rw [newlinesBefore, Text.utf8_cons, List.take_append, List.count_append, hNone, Nat.zero_add,
    String.length_utf8EncodeChar]
  rfl

/-- Between two characters, the newlines before an offset are those of the text before it. -/
theorem newlinesBefore_byteLength (before after : List Char) :
    newlinesBefore (Text.byteLength before) (before ++ after) = before.count '\n' := by
  induction before with
  | nil => simp [newlinesBefore, Text.byteLength]
  | cons c before ih =>
      rw [List.cons_append, Text.byteLength, List.count_cons]
      by_cases hNewline : c = '\n'
      · subst hNewline
        have hSize : ('\n' : Char).utf8Size = 1 := by decide
        rw [hSize, Nat.add_comm, newlinesBefore_newline, ih]
        rfl
      · rw [newlinesBefore_cons hNewline, Nat.add_sub_cancel_left, ih]
        simp [hNewline]

/-! The line and the column. -/

/-- The last start up to an offset has as many starts before it as there are newlines. -/
theorem exists_isLastStart_go (base offset : Nat) (text : List Char) :
    ∃ start, IsLastStart (base :: lineStarts.go base text) (base + offset)
      (newlinesBefore offset text) start := by
  induction text generalizing base offset with
  | nil =>
      have hNone : newlinesBefore offset [] = 0 := by simp [newlinesBefore, Text.utf8]
      exact ⟨base, by rw [hNone]; rfl, Nat.le_add_right _ _, by simp [hNone, lineStarts.go]⟩
  | cons c text ih =>
      by_cases hNewline : c = '\n'
      · subst hNewline
        have hSize : ('\n' : Char).utf8Size = 1 := by decide
        cases offset with
        | zero => exact ⟨base, rfl, Nat.le_refl _, fun _ => lt_of_mem_lineStarts_go⟩
        | succ offset =>
            obtain ⟨start, hStart⟩ := ih (base + 1) offset
            rw [newlinesBefore_newline, lineStarts.go, hSize, if_pos rfl, Nat.add_comm offset,
              ← Nat.add_assoc]
            exact ⟨start, hStart.cons base⟩
      · obtain ⟨start, hGet, hLe, hLt⟩ := ih (base + c.utf8Size) (offset - c.utf8Size)
        rw [newlinesBefore_cons hNewline, lineStarts.go, if_neg hNewline]
        cases hLine : newlinesBefore (offset - c.utf8Size) text with
        | zero =>
            -- The line started before the character, and no line starts within it.
            rw [hLine] at hLt
            exact ⟨base, rfl, Nat.le_add_right _ _, fun later hLater => by
              have := hLt later hLater
              omega⟩
        | succ line =>
            have hInside : c.utf8Size ≤ offset := by
              by_contra hOutside
              rw [Nat.sub_eq_zero_of_le (Nat.le_of_not_le hOutside)] at hLine
              simp [newlinesBefore] at hLine
            rw [hLine] at hGet hLt
            have hOffset : base + c.utf8Size + (offset - c.utf8Size) = base + offset := by omega
            rw [hOffset] at hLe hLt
            exact ⟨start, hGet, hLe, hLt⟩

/-- The line that counts the newlines before an offset is the last to start up to it. -/
theorem exists_isLastStart (offset : Nat) (text : List Char) :
    ∃ start, IsLastStart (lineStarts text) offset (newlinesBefore offset text) start := by
  have h := exists_isLastStart_go 0 offset text
  rwa [Nat.zero_add] at h

/-- The lines before the last one end where the last line starts. -/
theorem getElem?_lineStarts_count (before after : List Char) :
    (lineStarts (before ++ after))[before.count '\n']? =
      some (Text.byteLength (earlierLines before)) := by
  have hSplit : before ++ after = earlierLines before ++ (lastLine before ++ after) := by
    rw [← List.append_assoc, earlierLines_append_lastLine]
  have hCount : before.count '\n' = (earlierLines before).count '\n' := by
    conv_lhs => rw [← earlierLines_append_lastLine before]
    rw [List.count_append, count_lastLine, Nat.add_zero]
  have hLength := length_lineStarts (earlierLines before)
  rw [hSplit, hCount, lineStarts_append, List.getElem?_append_left (by omega)]
  rcases earlierLines_eq_nil_or before with hNil | ⟨lines, hLines⟩
  · rw [hNil]
    rfl
  · have hSize : ('\n' : Char).utf8Size = 1 := by decide
    have hStarts := length_lineStarts lines
    rw [hLines, lineStarts_append, Text.byteLength_append, List.count_append,
      List.getElem?_append_right (by rw [hStarts]; simp)]
    simp [lineStarts.go, hStarts, hSize, Text.byteLength]

/-- The search keeps the last start that it has met up to the offset. -/
theorem lastStart_go_isLastStart {offset start : Nat} (rest front : List Nat)
    (hSorted : (start :: rest).Pairwise (· < ·)) (hStart : start ≤ offset) :
    IsLastStart (front ++ start :: rest) offset
      (lastStart.go offset (front.length + 1) start rest).1
      (lastStart.go offset (front.length + 1) start rest).2 := by
  induction rest generalizing front start with
  | nil =>
      rw [lastStart.go, Nat.add_sub_cancel]
      exact ⟨by simp, hStart, by simp⟩
  | cons next rest ih =>
      obtain ⟨-, hRest⟩ := List.pairwise_cons.mp hSorted
      rw [lastStart.go]
      split
      · rename_i hNext
        simpa using ih (front ++ [start]) hRest hNext
      · rename_i hNext
        rw [Nat.add_sub_cancel]
        refine ⟨by simp, hStart, fun later hLater => ?_⟩
        have hDrop : (front ++ start :: next :: rest).drop (front.length + 1) = next :: rest := by
          simp
        rw [hDrop] at hLater
        rcases List.mem_cons.mp hLater with rfl | hLater
        · exact Nat.lt_of_not_le hNext
        · exact Nat.lt_trans (Nat.lt_of_not_le hNext) ((List.pairwise_cons.mp hRest).1 _ hLater)

/-- It finds the last start of all. -/
theorem lastStart_isLastStart (offset : Nat) (text : List Char) :
    IsLastStart (lineStarts text) offset (lastStart offset (lineStarts text)).1
      (lastStart offset (lineStarts text)).2 := by
  rw [lastStart, lineStarts, lastStart.go, if_pos (Nat.zero_le _)]
  exact lastStart_go_isLastStart _ [] (pairwise_lineStarts text) (Nat.zero_le _)

/-- The column that is counted from the start of a line, in characters if the offset stands between
two of them and in bytes if not. -/
def columnFrom (start offset : Nat) (text : List Char) : Nat :=
  match Text.slice? start offset text with
  | some before => before.length
  | none => offset - start

/-- Whatever finds the last start of a line up to an offset, the place of the offset follows. -/
theorem IsLastStart.isPlaceOf {text : List Char} {offset line start : Nat}
    (h : IsLastStart (lineStarts text) offset line start) :
    IsPlaceOf text offset (line + 1) (columnFrom start offset text + 1) := by
  obtain ⟨start', h'⟩ := exists_isLastStart offset text
  obtain ⟨rfl, rfl⟩ := h.unique h'
  refine ⟨Nat.add_comm _ _, ?_⟩
  rintro before after rfl rfl
  have hStart := h.getElem?
  rw [newlinesBefore_byteLength, getElem?_lineStarts_count] at hStart
  obtain rfl := Option.some.inj hStart
  have hSlice : Text.slice? (Text.byteLength (earlierLines before)) (Text.byteLength before)
      (before ++ after) = some (lastLine before) := by
    have hCut := Text.slice?_append (earlierLines before) (lastLine before) after
    rwa [← Text.byteLength_append, ← List.append_assoc, earlierLines_append_lastLine] at hCut
  rw [columnFrom, hSlice, Nat.add_comm]

/-- A span is located at the place of its start. -/
theorem locate_isPlaceOf (source : String) (span : Span) :
    IsPlaceOf source.toList (min span.start (Text.byteLength source.toList))
      (locate source span).line (locate source span).column :=
  (lastStart_isLastStart _ _).isPlaceOf

/-- An offset between two characters has one place. -/
theorem IsPlaceOf.unique {before after : List Char} {line column line' column' : Nat}
    (h : IsPlaceOf (before ++ after) (Text.byteLength before) line column)
    (h' : IsPlaceOf (before ++ after) (Text.byteLength before) line' column') :
    line = line' ∧ column = column' :=
  ⟨h.line_eq.trans h'.line_eq.symm,
    (h.column_eq before after rfl rfl).trans (h'.column_eq before after rfl rfl).symm⟩

/-- Of two offsets between characters, the later one has the later place. -/
theorem IsPlaceOf.lt {before middle after : List Char} {line column line' column' : Nat}
    (hMiddle : middle ≠ [])
    (h : IsPlaceOf (before ++ middle ++ after) (Text.byteLength before) line column)
    (h' : IsPlaceOf (before ++ middle ++ after) (Text.byteLength (before ++ middle)) line'
      column') :
    toLex (line, column) < toLex (line', column') := by
  have hLine := h.line_eq
  have hLine' := h'.line_eq
  have hColumn := h.column_eq before (middle ++ after) (List.append_assoc _ _ _) rfl
  have hColumn' := h'.column_eq (before ++ middle) after rfl rfl
  rw [List.append_assoc, newlinesBefore_byteLength] at hLine
  rw [newlinesBefore_byteLength, List.count_append] at hLine'
  rw [Prod.Lex.toLex_lt_toLex]
  by_cases hNewline : '\n' ∈ middle
  · have hCount : 0 < middle.count '\n' := List.count_pos_iff.mpr hNewline
    exact Or.inl (by omega)
  · have hCount : middle.count '\n' = 0 := List.count_eq_zero.mpr hNewline
    have hLength : 0 < middle.length := List.length_pos_iff.mpr hMiddle
    rw [lastLine_append before hNewline, List.length_append] at hColumn'
    exact Or.inr ⟨by omega, by omega⟩

end ComponentAnalysis
