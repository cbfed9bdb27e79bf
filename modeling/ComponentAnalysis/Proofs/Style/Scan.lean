import ComponentAnalysis.Proofs.Style.Composition
import ComponentAnalysis.Proofs.Text.Utf8

/-! The search for uses as a scan of the bytes of a style. Its positions only advance, so it ends.
It never takes bytes from behind the last one and never cuts a character in two. -/
namespace ComponentAnalysis.StyleVariables

/-- Where the expression of the next use starts in the bytes of a style and how long it is, searched
from a position on. There may be no further use. There is no answer at all if the search leaves the
bytes. -/
def nextUse? (css : List Char) (position : Nat) : Option (Option (Nat × Nat)) :=
  (Text.bytesFrom? position (Text.utf8 css)).bind fun behind =>
    match Text.findBytes? (Text.utf8 opening) behind with
    | none => some none
    | some gap =>
      let start := position + gap + (Text.utf8 opening).length
      (Text.bytesFrom? start (Text.utf8 css)).map fun inside =>
        (Text.findBytes? (Text.utf8 [')']) inside).map fun length => (start, length)

/-- The expression of a use starts behind the position of the search. -/
theorem nextUse?_advances {css : List Char} {position start length : Nat}
    (h : nextUse? css position = some (some (start, length))) :
    position < start ∧ start ≤ (Text.utf8 css).length := by
  obtain ⟨behind, -, h⟩ := Option.bind_eq_some_iff.mp h
  split at h
  · cases h
  · obtain ⟨inside, hInside, h⟩ := Option.map_eq_some_iff.mp h
    obtain ⟨_, -, hUse⟩ := Option.map_eq_some_iff.mp h
    obtain ⟨rfl, rfl⟩ := Prod.mk.inj hUse
    have hOpening : 0 < (Text.utf8 opening).length := by decide
    exact ⟨by omega, (Option.ite_none_right_eq_some.mp hInside).1⟩

/-- The texts between the parentheses that a scan of the bytes reads from a position on. There is no
result if the scan leaves the bytes or cuts a character in two. -/
def scan? (css : List Char) (position : Nat) : Option (List (List Char)) :=
  match h : nextUse? css position with
  | none => none
  | some none => some []
  | some (some (start, length)) =>
    have := nextUse?_advances h
    (Text.slice? start (start + length) css).bind fun raw =>
      (scan? css (start + length + 1)).map (raw :: ·)
termination_by (Text.utf8 css).length - position
decreasing_by omega

/-- The scan, without the proof that it ends. -/
theorem scan?_eq (css : List Char) (position : Nat) :
    scan? css position = (nextUse? css position).bind fun next =>
      match next with
      | none => some []
      | some (start, length) => (Text.slice? start (start + length) css).bind fun raw =>
          (scan? css (start + length + 1)).map (raw :: ·) := by
  rw [scan?]
  split
  · rename_i hNext
    rw [hNext, Option.bind_none]
  · rename_i hNext
    rw [hNext, Option.bind_some]
  · rename_i hNext
    simp only [hNext, Option.bind_some]

theorem findBytes?_opening (text : List Char) :
    Text.findBytes? (Text.utf8 opening) (Text.utf8 text) =
      (Text.cut? opening text).map fun cut => Text.byteLength cut.1 :=
  Text.findBytes?_utf8 (by decide) text

theorem findBytes?_closing (text : List Char) :
    Text.findBytes? (Text.utf8 [')']) (Text.utf8 text) =
      (Text.cut? [')'] text).map fun cut => Text.byteLength cut.1 :=
  Text.findBytes?_utf8 (by decide) text

theorem nextUse?_plain (front : List Char) {text : List Char} (hText : ¬ opening <:+: text) :
    nextUse? (front ++ text) (Text.byteLength front) = some none := by
  rw [nextUse?, Text.bytesFrom?_append, Option.bind_some, findBytes?_opening,
    Text.cut?_eq_none_iff.mpr hText]
  rfl

/-- Behind the opening of a use, the search goes on to the next closing parenthesis. -/
theorem nextUse?_opened (front : List Char) {text : List Char} (after : List Char)
    (hText : ¬ opening <:+: text) :
    nextUse? (front ++ (text ++ opening ++ after)) (Text.byteLength front) =
      some ((Text.cut? [')'] after).map fun cut =>
        (Text.byteLength (front ++ text ++ opening), Text.byteLength cut.1)) := by
  have hStart : Text.byteLength front + Text.byteLength text + (Text.utf8 opening).length =
      Text.byteLength (front ++ text ++ opening) := by
    rw [Text.length_utf8, Text.byteLength_append, Text.byteLength_append]
  have hText' : front ++ (text ++ opening ++ after) = front ++ text ++ opening ++ after := by
    simp only [List.append_assoc]
  rw [nextUse?, Text.bytesFrom?_append, Option.bind_some, findBytes?_opening, cut?_opening hText]
  dsimp only [Option.map_some]
  rw [hStart, hText', Text.bytesFrom?_append, Option.map_some, findBytes?_closing, Option.map_map]
  rfl

/-- Behind any text, the scan reads the expressions of a composed style. -/
theorem scan?_append (front : List Char) (parts : Composition) :
    scan? (front ++ parts.text) (Text.byteLength front) = some parts.raws := by
  induction parts generalizing front with
  | plain text hText =>
      rw [scan?_eq, Composition.text, nextUse?_plain front hText]
      rfl
  | unclosed text rest hText hRest =>
      rw [scan?_eq, Composition.text, nextUse?_opened front rest hText,
        cut?_closing_eq_none_iff.mpr hRest]
      rfl
  | closed gap raw hGap hRaw rest ih =>
      obtain ⟨behind, hBehind⟩ : ∃ behind, behind = front ++ gap ++ opening := ⟨_, rfl⟩
      have hRaw' : front ++ (gap ++ opening ++ (raw ++ [')'] ++ rest.text)) =
          behind ++ (raw ++ ([')'] ++ rest.text)) := by
        simp only [hBehind, List.append_assoc]
      have hRest : behind ++ (raw ++ ([')'] ++ rest.text)) =
          behind ++ raw ++ [')'] ++ rest.text := by
        simp only [List.append_assoc]
      have hStop : Text.byteLength behind + Text.byteLength raw + 1 =
          Text.byteLength (behind ++ raw ++ [')']) := by
        rw [Text.byteLength_append, Text.byteLength_append]
        rfl
      rw [scan?_eq, Composition.text, nextUse?_opened front _ hGap, cut?_closing hRaw,
        Option.map_some, Option.bind_some]
      dsimp only
      rw [← hBehind, hRaw', hStop, Text.slice?_append, Option.bind_some, hRest, ih]
      rfl

theorem scan?_eq_rawUses (css : List Char) : scan? css 0 = some (rawUses css) := by
  obtain ⟨parts, rfl⟩ := Composition.exists_text_eq css
  rw [parts.rawUses_text]
  exact scan?_append [] parts

end ComponentAnalysis.StyleVariables
