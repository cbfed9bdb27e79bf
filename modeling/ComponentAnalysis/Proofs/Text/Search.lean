import ComponentAnalysis.Text.Search
import Mathlib.Data.List.Infix

/-! Where a text occurs in another. A text whose first character does not come again in it cannot
overlap with itself, so one of its occurrences starts behind the end of another. -/
namespace ComponentAnalysis.Text

variable {needle text before after : List Char}

/-- A mark that does not stand in the first part of a text stands behind it. -/
theorem exists_middle_of_mark {mark : Char} {first back front rest : List Char}
    (hMark : mark ∉ first) (h : first ++ back = front ++ mark :: rest) :
    ∃ middle, front = first ++ middle ∧ back = middle ++ mark :: rest := by
  rcases List.append_eq_append_iff.mp h with ⟨middle, hFront, hBack⟩ | ⟨middle, hFirst, hBack⟩
  · exact ⟨middle, hFront, hBack⟩
  · cases middle with
    | nil => exact ⟨[], by simpa using hFirst.symm, by simpa using hBack.symm⟩
    | cons c middle =>
        obtain ⟨rfl, -⟩ := List.cons_eq_cons.mp hBack
        exact absurd (by simp [hFirst]) hMark

/-- Nothing is cut exactly if the needle does not occur. -/
theorem cut?_eq_none_iff : cut? needle text = none ↔ ¬ needle <:+: text := by
  induction text with
  | nil => simp [cut?]
  | cons c rest ih =>
      rw [cut?, List.infix_cons_iff, ← List.isPrefixOf_iff_prefix]
      by_cases hHere : needle.isPrefixOf (c :: rest) = true
      · simp [hHere]
      · simp [hHere, ih]

/-- The cut is at the first occurrence. -/
theorem not_infix_of_cut? (hNeedle : needle ≠ [])
    (h : cut? needle text = some (before, after)) : ¬ needle <:+: before := by
  induction text generalizing before with
  | nil => simp [cut?, hNeedle] at h
  | cons c rest ih =>
      rw [cut?] at h
      split at h
      · obtain ⟨rfl, -⟩ := Prod.mk.inj (Option.some.inj h)
        exact fun hInfix => hNeedle (List.infix_nil.mp hInfix)
      · rename_i hHere
        obtain ⟨⟨front, back⟩, hCut, hSame⟩ := Option.map_eq_some_iff.mp h
        obtain ⟨rfl, rfl⟩ := Prod.mk.inj hSame
        rw [List.infix_cons_iff]
        rintro (hStart | hLater)
        · refine hHere (List.isPrefixOf_iff_prefix.mpr (hStart.trans ?_))
          rw [cut?_eq_append hCut, List.append_assoc]
          exact List.prefix_append (c :: front) _
        · exact ih hCut hLater

/-- A needle that cannot overlap with itself is cut out where nothing before it has it. -/
theorem cut?_append {mark : Char} {tail : List Char} (hMark : mark ∉ tail)
    (hBefore : ¬ mark :: tail <:+: before) :
    cut? (mark :: tail) (before ++ mark :: tail ++ after) = some (before, after) := by
  induction before with
  | nil =>
      rw [List.nil_append, List.cons_append, cut?, ← List.cons_append,
        if_pos (List.isPrefixOf_iff_prefix.mpr (List.prefix_append _ _)), List.drop_left]
  | cons c before ih =>
      rw [List.infix_cons_iff, not_or] at hBefore
      -- An occurrence here cannot reach the mark behind, so it would lie in what is before.
      have hHere : ¬ mark :: tail <+: c :: (before ++ mark :: tail ++ after) := by
        rintro ⟨back, hBack⟩
        obtain ⟨rfl, hRest⟩ := List.cons_eq_cons.mp hBack
        rw [List.append_assoc, List.cons_append] at hRest
        obtain ⟨middle, rfl, -⟩ := exists_middle_of_mark hMark hRest
        exact hBefore.1 ⟨middle, rfl⟩
      rw [List.cons_append, List.cons_append, cut?,
        if_neg fun hPrefix => hHere (List.isPrefixOf_iff_prefix.mp hPrefix), ih hBefore.2]
      rfl

end ComponentAnalysis.Text
