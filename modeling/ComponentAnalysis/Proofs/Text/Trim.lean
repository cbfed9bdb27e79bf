import ComponentAnalysis.Text.Blank
import Mathlib.Data.List.DropRight
import Mathlib.Data.List.TakeWhile

/-! What is left of a text without the characters of a class around it. -/
namespace ComponentAnalysis.Text

/-- A text consists of a core and characters of a class around it, and the core has none of them at
its ends. -/
structure Trims (p : Char → Bool) (text core : List Char) : Prop where
  around : ∃ front back, text = front ++ core ++ back ∧
    (∀ c ∈ front, p c = true) ∧ ∀ c ∈ back, p c = true
  head : ∀ c ∈ core.head?, p c = false
  last : ∀ c ∈ core.getLast?, p c = false

variable {p : Char → Bool} {text core : List Char}

theorem trim_eq_rdropWhile (p : Char → Bool) (text : List Char) :
    trim p text = (text.dropWhile p).rdropWhile p := rfl

theorem trims_trim (p : Char → Bool) (text : List Char) : Trims p text (trim p text) := by
  rw [trim_eq_rdropWhile]
  constructor
  · refine ⟨text.takeWhile p, (text.dropWhile p).rtakeWhile p, ?_, ?_, ?_⟩
    · rw [List.append_assoc, List.rdropWhile_append_rtakeWhile, List.takeWhile_append_dropWhile]
    · exact fun c hc => List.mem_takeWhile_imp hc
    · exact fun c hc => List.mem_rtakeWhile_imp hc
  · intro c hc
    obtain ⟨back, hBack⟩ := List.rdropWhile_prefix p (text.dropWhile p)
    have hHead : (text.dropWhile p).head? = some c := by
      rw [← hBack, List.head?_append, hc, Option.some_or]
    have hNot := List.head?_dropWhile_not p text
    rwa [hHead] at hNot
  · intro c hc
    obtain ⟨hNonempty, rfl⟩ := List.mem_getLast?_eq_getLast hc
    rw [← Bool.not_eq_true]
    exact List.rdropWhile_last_not p _ hNonempty

/-- There is only one such core. -/
theorem Trims.trim_eq (h : Trims p text core) : trim p text = core := by
  obtain ⟨front, back, rfl, hFront, hBack⟩ := h.around
  have hReverse : ∀ c ∈ back.reverse, p c = true := fun c hc => hBack c (List.mem_reverse.mp hc)
  rw [trim_eq_rdropWhile, List.append_assoc, List.dropWhile_append_of_pos hFront]
  cases core with
  | nil => rw [List.nil_append, List.dropWhile_eq_nil_iff.mpr hBack, List.rdropWhile_nil]
  | cons c core =>
      have hHead : ¬ p c = true := by
        rw [h.head c rfl]
        exact Bool.false_ne_true
      rw [List.cons_append, List.dropWhile_cons_of_neg hHead, ← List.cons_append, List.rdropWhile,
        List.reverse_append, List.dropWhile_append_of_pos hReverse]
      refine List.rdropWhile_eq_self_iff.mpr fun hNonempty => ?_
      rw [h.last _ (List.getLast?_eq_getLast_of_ne_nil hNonempty)]
      exact Bool.false_ne_true

/-- A core is a part of the text. -/
theorem Trims.mem (h : Trims p text core) {c : Char} (hc : c ∈ core) : c ∈ text := by
  obtain ⟨front, back, rfl, -, -⟩ := h.around
  simp [hc]

end ComponentAnalysis.Text
