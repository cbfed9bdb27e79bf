import ComponentAnalysis.Proofs.Text.Search
import ComponentAnalysis.Style.Variables

/-! Styles as texts with uses of expressions between them. Every style is composed in exactly one
way, which the search for uses takes apart. -/
namespace ComponentAnalysis.StyleVariables

/-- A style as it is composed: plain text, behind which a use may be opened and never closed, or
plain text, a use of an expression, and a style again. -/
inductive Composition where
  | plain (text : List Char) (hText : ¬ opening <:+: text)
  | unclosed (text rest : List Char) (hText : ¬ opening <:+: text) (hRest : ')' ∉ rest)
  | closed (gap raw : List Char) (hGap : ¬ opening <:+: gap) (hRaw : ')' ∉ raw)
    (rest : Composition)

namespace Composition

/-- The text of a composed style. -/
def text : Composition → List Char
  | plain text _ => text
  | unclosed text rest _ _ => text ++ opening ++ rest
  | closed gap raw _ _ rest => gap ++ opening ++ (raw ++ [')'] ++ rest.text)

/-- The texts between the parentheses of the uses. -/
def raws : Composition → List (List Char)
  | plain _ _ => []
  | unclosed _ _ _ _ => []
  | closed _ raw _ _ rest => raw :: rest.raws

end Composition

/-! How the search takes a style apart. -/

/-- A style is cut at the first opening in it. -/
theorem cut?_opening {front behind : List Char} (hFront : ¬ opening <:+: front) :
    Text.cut? opening (front ++ opening ++ behind) = some (front, behind) :=
  Text.cut?_append (by decide) hFront

/-- A use is cut at the first parenthesis behind its opening. -/
theorem cut?_closing {raw behind : List Char} (hRaw : ')' ∉ raw) :
    Text.cut? [')'] (raw ++ [')'] ++ behind) = some (raw, behind) :=
  Text.cut?_append List.not_mem_nil fun hInfix => hRaw ((List.singleton_infix_iff _ _).mp hInfix)

theorem cut?_closing_eq_none_iff {text : List Char} : Text.cut? [')'] text = none ↔ ')' ∉ text := by
  rw [Text.cut?_eq_none_iff, List.singleton_infix_iff]

/-- The search, without the proof that it ends. -/
theorem rawUses_eq (css : List Char) :
    rawUses css =
      match Text.cut? opening css with
      | none => []
      | some (_, after) =>
        match Text.cut? [')'] after with
        | none => []
        | some (raw, rest) => raw :: rawUses rest := by
  rw [rawUses]
  split
  · rename_i hNone
    rw [hNone]
  · rename_i hOpen
    split
    · rename_i hNone
      simp only [hOpen, hNone]
    · rename_i hClose
      simp only [hOpen, hClose]

theorem rawUses_plain {text : List Char} (hText : ¬ opening <:+: text) : rawUses text = [] := by
  rw [rawUses_eq, Text.cut?_eq_none_iff.mpr hText]

/-- A use that is never closed counts for nothing, and no use behind it is found. -/
theorem rawUses_unclosed {text rest : List Char} (hText : ¬ opening <:+: text)
    (hRest : ')' ∉ rest) : rawUses (text ++ opening ++ rest) = [] := by
  rw [rawUses_eq, cut?_opening hText]
  dsimp only
  rw [cut?_closing_eq_none_iff.mpr hRest]

/-- The search goes on behind a use. -/
theorem rawUses_closed {gap raw rest : List Char} (hGap : ¬ opening <:+: gap) (hRaw : ')' ∉ raw) :
    rawUses (gap ++ opening ++ (raw ++ [')'] ++ rest)) = raw :: rawUses rest := by
  rw [rawUses_eq, cut?_opening hGap]
  dsimp only
  rw [cut?_closing hRaw]

namespace Composition

/-- The search finds the uses of which a style is composed. -/
theorem rawUses_text (parts : Composition) : rawUses parts.text = parts.raws := by
  induction parts with
  | plain text hText => exact rawUses_plain hText
  | unclosed text rest hText hRest => exact rawUses_unclosed hText hRest
  | closed gap raw hGap hRaw rest ih => rw [text, rawUses_closed hGap hRaw, ih, raws]

theorem closing_notMem_of_mem_raws {parts : Composition} {raw : List Char}
    (h : raw ∈ parts.raws) : ')' ∉ raw := by
  induction parts with
  | plain => cases h
  | unclosed => cases h
  | closed gap first hGap hFirst rest ih =>
      rcases List.mem_cons.mp h with rfl | hRest
      · exact hFirst
      · exact ih hRest

/-- Every text is composed. -/
theorem exists_text_eq (css : List Char) : ∃ parts : Composition, parts.text = css := by
  induction hLength : css.length using Nat.strong_induction_on generalizing css with
  | _ length ih =>
      cases hOpen : Text.cut? opening css with
      | none => exact ⟨plain css (Text.cut?_eq_none_iff.mp hOpen), rfl⟩
      | some cut =>
          obtain ⟨gap, after⟩ := cut
          have hGap := Text.not_infix_of_cut? (by decide) hOpen
          cases hClose : Text.cut? [')'] after with
          | none =>
              have hRest := cut?_closing_eq_none_iff.mp hClose
              exact ⟨unclosed gap after hGap hRest, (Text.cut?_eq_append hOpen).symm⟩
          | some cut =>
              obtain ⟨raw, rest⟩ := cut
              have hRaw : ')' ∉ raw := fun hMem => Text.not_infix_of_cut? (List.cons_ne_nil _ _)
                hClose ((List.singleton_infix_iff _ _).mpr hMem)
              have hShorter : rest.length < length := by
                have hOpenLength := Text.cut?_length hOpen
                have hCloseLength := Text.cut?_length hClose
                rw [List.length_singleton] at hCloseLength
                omega
              obtain ⟨parts, rfl⟩ := ih _ hShorter rest rfl
              refine ⟨closed gap raw hGap hRaw parts, ?_⟩
              rw [text, ← Text.cut?_eq_append hClose, ← Text.cut?_eq_append hOpen]

/-- The text before the first use that is opened and the text behind its opening. -/
def opened? : Composition → Option (List Char × List Char)
  | plain _ _ => none
  | unclosed front rest _ _ => some (front, rest)
  | closed gap raw _ _ rest => some (gap, raw ++ [')'] ++ rest.text)

/-- The first opening of a composed style is that of its first use. -/
theorem cut?_text (parts : Composition) : Text.cut? opening parts.text = parts.opened? := by
  cases parts with
  | plain front hFront => exact Text.cut?_eq_none_iff.mpr hFront
  | unclosed front rest hFront hRest => exact cut?_opening hFront
  | closed gap raw hGap hRaw rest => exact cut?_opening hGap

theorem opened?_eq_of_text_eq {parts other : Composition} (h : parts.text = other.text) :
    parts.opened? = other.opened? := by
  rw [← cut?_text, ← cut?_text, h]

/-- A closed use is not an unclosed one. -/
theorem opened?_closed_ne_unclosed {gap raw front behind : List Char} {hGap : ¬ opening <:+: gap}
    {hRaw : ')' ∉ raw} {rest : Composition} {hFront : ¬ opening <:+: front}
    {hBehind : ')' ∉ behind} :
    (closed gap raw hGap hRaw rest).opened? ≠ (unclosed front behind hFront hBehind).opened? := by
  intro hSame
  obtain ⟨-, rfl⟩ := Prod.mk.inj (Option.some.inj hSame)
  exact hBehind (by simp)

/-- The text of a closed use shows its gap, what is between its parentheses and what follows. -/
theorem closed_inj {gap gap' raw raw' : List Char} {hGap : ¬ opening <:+: gap}
    {hGap' : ¬ opening <:+: gap'} {hRaw : ')' ∉ raw} {hRaw' : ')' ∉ raw'}
    {rest rest' : Composition}
    (h : (closed gap raw hGap hRaw rest).opened? = (closed gap' raw' hGap' hRaw' rest').opened?) :
    gap = gap' ∧ raw = raw' ∧ rest.text = rest'.text := by
  obtain ⟨hGapSame, hBehind⟩ := Prod.mk.inj (Option.some.inj h)
  have hClose := congrArg (Text.cut? [')']) hBehind
  rw [cut?_closing hRaw, cut?_closing hRaw'] at hClose
  exact ⟨hGapSame, Prod.mk.inj (Option.some.inj hClose)⟩

/-- No text is composed in two ways. -/
theorem text_injective : Function.Injective text := by
  intro parts other hSame
  induction parts generalizing other with
  | plain front hFront =>
      have hOpened := opened?_eq_of_text_eq hSame
      cases other with
      | plain front' hFront' =>
          obtain rfl : front = front' := hSame
          rfl
      | unclosed => cases hOpened
      | closed => cases hOpened
  | unclosed front rest hFront hRest =>
      have hOpened := opened?_eq_of_text_eq hSame
      cases other with
      | plain => cases hOpened
      | unclosed front' rest' hFront' hRest' =>
          obtain ⟨rfl, rfl⟩ := Prod.mk.inj (Option.some.inj hOpened)
          rfl
      | closed => exact absurd hOpened.symm opened?_closed_ne_unclosed
  | closed gap raw hGap hRaw rest ih =>
      have hOpened := opened?_eq_of_text_eq hSame
      cases other with
      | plain => cases hOpened
      | unclosed => exact absurd hOpened opened?_closed_ne_unclosed
      | closed gap' raw' hGap' hRaw' rest' =>
          obtain ⟨rfl, rfl, hRest⟩ := closed_inj hOpened
          obtain rfl := ih hRest
          rfl

end Composition

end ComponentAnalysis.StyleVariables
