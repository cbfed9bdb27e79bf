import ComponentAnalysis.Proofs.Text.Search
import ComponentAnalysis.Script.Character
import ComponentAnalysis.Style.Usage
import ComponentAnalysis.Text.Blank

/-! Which tags a template is seen to open. The name of a tag is taken to go on with the characters
that names have in ASCII. So a tag is taken for one of a shorter name exactly if its own name goes
on with another character. -/
namespace ComponentAnalysis

/-- The characters behind the name of a tag: blanks, a slash and the closing bracket. -/
def endsTagName (c : Char) : Bool :=
  c == '/' || c == '>' || Text.isBlank c || Script.isSpace c

/-- A character of a name in a script. The scripts take a next-line character for one, which is a
blank of markup. -/
def IsNamePart (c : Char) : Prop := Script.isWordPart c = true ∧ Text.isBlank c = false

/-- A name that a script can give. -/
structure IsIdentifier (name : List Char) : Prop where
  start : ∃ c ∈ name.head?, Script.isWordStart c = true
  part : ∀ c ∈ name, IsNamePart c

/-- A text goes on with the whole name of a tag. -/
def StartsWithName (name text : List Char) : Prop :=
  ∃ back, text = name ++ back ∧ ∀ c ∈ back.head?, endsTagName c = true

/-- A tag of a name is opened somewhere in a text. -/
def OpensTag (name text : List Char) : Prop :=
  ∃ front back, text = front ++ '<' :: back ∧ StartsWithName name back

/-- What the scan looks for: an opening bracket and a name that is not seen to go on. -/
def ShowsTag (name text : List Char) : Prop :=
  ∃ front back, text = front ++ '<' :: (name ++ back) ∧
    ∀ c ∈ back.head?, continuesTagName c = false

/-- Every tag of a text closes an element or opens one of a name. -/
def OpensOnly (name text : List Char) : Prop :=
  ∀ front back, text = front ++ '<' :: back → back.head? = some '/' ∨ StartsWithName name back

/-! Characters of names and characters behind them. -/

/-- Letters are tested by the ranges of ASCII. -/
theorem isAlpha_iff {c : Char} : c.isAlpha = true ↔
    (65 ≤ c.toNat ∧ c.toNat ≤ 90) ∨ (97 ≤ c.toNat ∧ c.toNat ≤ 122) := by
  have hUpper : c.isUpper = true ↔ 65 ≤ c.toNat ∧ c.toNat ≤ 90 := decide_eq_true_iff
  have hLower : c.isLower = (decide (97 ≤ c.toNat) && decide (c.toNat ≤ 122)) := rfl
  have hAlpha : c.isAlpha = (c.isUpper || c.isLower) := rfl
  rw [hAlpha, Bool.or_eq_true, hUpper, hLower, Bool.and_eq_true, decide_eq_true_iff,
    decide_eq_true_iff]

/-- The test whether a name of a tag goes on knows ASCII only. -/
theorem continuesTagName_iff {c : Char} : continuesTagName c = true ↔
    ((65 ≤ c.toNat ∧ c.toNat ≤ 90) ∨ (97 ≤ c.toNat ∧ c.toNat ≤ 122) ∨
      (48 ≤ c.toNat ∧ c.toNat ≤ 57)) ∨ c.toNat = 95 ∨ c.toNat = 45 ∨ c.toNat = 36 := by
  simp only [continuesTagName, Char.isAlphanum, isAlpha_iff, Char.isDigit, Bool.or_eq_true,
    Bool.and_eq_true, decide_eq_true_eq, beq_iff_eq, or_assoc, UInt32.le_iff_toNat_le, ge_iff_le,
    ← Char.toNat_inj]
  rfl

/-- A character of a name passes the test, or it is beyond ASCII. -/
theorem continuesTagName_or_of_isWordPart {c : Char} (h : Script.isWordPart c = true) :
    continuesTagName c = true ∨ (128 ≤ c.toNat ∧ Script.isSpace c = false) := by
  simp only [Script.isWordPart, Script.isWordStart, Bool.or_eq_true, Bool.and_eq_true,
    decide_eq_true_eq, Bool.not_eq_true'] at h
  simp only [continuesTagName, Char.isAlphanum, Bool.or_eq_true]
  tauto

theorem toNat_lt_of_continuesTagName {c : Char} (h : continuesTagName c = true) :
    c.toNat < 128 := by
  rw [continuesTagName_iff] at h
  omega

/-- A name does not go on where it ends. -/
theorem not_continuesTagName_of_endsTagName {c : Char} (h : endsTagName c = true) :
    continuesTagName c = false := by
  rw [Bool.eq_false_iff, ne_eq, continuesTagName_iff]
  simp only [endsTagName, Text.isBlank, Script.isSpace, Bool.or_eq_true, Bool.and_eq_true,
    decide_eq_true_eq, beq_iff_eq, ← Char.toNat_inj, Char.reduceToNat] at h
  omega

/-- Of the characters of names, those beyond ASCII are not seen to go on with the name of a tag. -/
theorem IsNamePart.continuesTagName_eq_false_iff {c : Char} (h : IsNamePart c) :
    continuesTagName c = false ↔ 128 ≤ c.toNat := by
  constructor
  · intro hEnds
    rcases continuesTagName_or_of_isWordPart h.1 with hContinues | ⟨hWide, -⟩
    · rw [hEnds] at hContinues
      cases hContinues
    · exact hWide
  · intro hWide
    rw [Bool.eq_false_iff]
    exact fun hContinues => Nat.not_lt.mpr hWide (toNat_lt_of_continuesTagName hContinues)

/-- Nor does it end inside. -/
theorem IsNamePart.not_endsTagName {c : Char} (h : IsNamePart c) : endsTagName c ≠ true := by
  intro hEnds
  rcases continuesTagName_or_of_isWordPart h.1 with hContinues | ⟨hWide, hSpace⟩
  · rw [not_continuesTagName_of_endsTagName hEnds] at hContinues
    cases hContinues
  · simp only [endsTagName, h.2, hSpace, Bool.or_false, Bool.or_eq_true, beq_iff_eq] at hEnds
    rcases hEnds with rfl | rfl
    · exact absurd hWide (by decide)
    · exact absurd hWide (by decide)

theorem IsIdentifier.bracket_notMem {name : List Char} (h : IsIdentifier name) : '<' ∉ name := by
  intro hMem
  have hPart := (h.part '<' hMem).1
  revert hPart
  decide

/-! What the scan for a tag finds. -/

/-- The scan goes on behind an occurrence that it has found. -/
theorem hasTag_eq_drop (needle : List Char) (skip : Nat) (text : List Char) :
    hasTag needle skip text = hasTag needle 0 (text.drop skip) := by
  induction text generalizing skip with
  | nil => simp [hasTag]
  | cons c rest ih =>
      cases skip with
      | zero => rfl
      | succ skip =>
          rw [hasTag, if_pos (Nat.succ_pos skip), Nat.add_sub_cancel, ih, List.drop_succ_cons]

/-- At a tag that starts with the name, the scan looks at one character behind the name and, if that
goes on, searches further. -/
theorem hasTag_append (name back : List Char) :
    hasTag ('<' :: name) 0 ('<' :: (name ++ back)) =
      (!back.head?.any continuesTagName || hasTag ('<' :: name) 0 back) := by
  rw [hasTag, if_neg (Nat.lt_irrefl 0), ← List.cons_append,
    if_pos (List.isPrefixOf_iff_prefix.mpr (List.prefix_append _ _)), List.drop_left,
    hasTag_eq_drop, List.length_cons, Nat.add_sub_cancel, List.drop_left]

/-- Where no such tag starts, the scan goes on with the next character. -/
theorem hasTag_cons {needle : List Char} {c : Char} {rest : List Char}
    (hHere : ¬ needle <+: c :: rest) : hasTag needle 0 (c :: rest) = hasTag needle 0 rest := by
  rw [hasTag, if_neg (Nat.lt_irrefl 0),
    if_neg fun hPrefix => hHere (List.isPrefixOf_iff_prefix.mp hPrefix)]

theorem not_any_continuesTagName_iff {back : List Char} :
    (!back.head?.any continuesTagName) = true ↔ ∀ c ∈ back.head?, continuesTagName c = false := by
  cases back <;> simp

/-- Behind an occurrence of a bracket and a name the next one starts anew. -/
theorem showsTag_append_iff {name back : List Char} (hName : '<' ∉ name) :
    ShowsTag name ('<' :: (name ++ back)) ↔
      (∀ c ∈ back.head?, continuesTagName c = false) ∨ ShowsTag name back := by
  constructor
  · rintro ⟨front, rest, hSplit, hEnds⟩
    cases front with
    | nil =>
        obtain rfl := List.append_cancel_left (List.cons_eq_cons.mp hSplit).2
        exact Or.inl hEnds
    | cons c front =>
        obtain ⟨middle, -, hBack⟩ :=
          Text.exists_middle_of_mark hName (List.cons_eq_cons.mp hSplit).2
        exact Or.inr ⟨middle, rest, hBack, hEnds⟩
  · rintro (hEnds | ⟨front, rest, rfl, hEnds⟩)
    · exact ⟨[], back, rfl, hEnds⟩
    · exact ⟨'<' :: (name ++ front), rest, by simp, hEnds⟩

/-- So does what the scan is compared with. -/
theorem showsTag_cons_iff {name rest : List Char} {c : Char}
    (hHere : ¬ '<' :: name <+: c :: rest) : ShowsTag name (c :: rest) ↔ ShowsTag name rest := by
  constructor
  · rintro ⟨front, back, hSplit, hEnds⟩
    cases front with
    | nil => exact absurd ⟨back, hSplit.symm⟩ hHere
    | cons d front => exact ⟨front, back, (List.cons_eq_cons.mp hSplit).2, hEnds⟩
  · rintro ⟨front, back, rfl, hEnds⟩
    exact ⟨c :: front, back, rfl, hEnds⟩

/-- The scan finds what it looks for, although it skips what it has found. -/
theorem hasTag_iff_showsTag {name : List Char} (hName : '<' ∉ name) (text : List Char) :
    hasTag ('<' :: name) 0 text = true ↔ ShowsTag name text := by
  induction hLength : text.length using Nat.strong_induction_on generalizing text with
  | _ length ih =>
      cases text with
      | nil => simp [hasTag, ShowsTag]
      | cons c rest =>
          by_cases hHere : '<' :: name <+: c :: rest
          · obtain ⟨back, hBack⟩ := hHere
            have hShorter : back.length < length := by
              rw [← hLength, ← hBack, List.length_append, List.length_cons]
              omega
            rw [← hBack, List.cons_append, hasTag_append, showsTag_append_iff hName,
              Bool.or_eq_true, not_any_continuesTagName_iff, ih _ hShorter back rfl]
          · have hShorter : rest.length < length := by
              rw [← hLength, List.length_cons]
              exact Nat.lt_succ_self _
            rw [hasTag_cons hHere, showsTag_cons_iff hHere, ih _ hShorter rest rfl]

/-- The scan finds a tag if one shows the name, followed by a character that is no part of a name in
ASCII. -/
theorem rendersTag_iff {template name : String} (hName : IsIdentifier name.toList) :
    rendersTag template name = true ↔ ShowsTag name.toList template.toList := by
  have hNonempty : name ≠ "" := by
    rintro rfl
    obtain ⟨c, hHead, -⟩ := hName.start
    cases hHead
  rw [rendersTag, Bool.and_eq_true, decide_eq_true_iff, and_iff_right hNonempty,
    hasTag_iff_showsTag hName.bracket_notMem]

/-! What the scan finds where only tags of one name are opened. -/

section

variable {a b text : List Char}

/-- A tag of a name shows the name. -/
theorem OpensTag.showsTag (h : OpensTag b text) : ShowsTag b text := by
  obtain ⟨front, _, rfl, back, rfl, hEnds⟩ := h
  exact ⟨front, back, rfl, fun c hc => not_continuesTagName_of_endsTagName (hEnds c hc)⟩

/-- A name that stands where a tag of another name is opened is that name, or the other one goes on
with a character beyond ASCII. -/
theorem eq_or_exists_of_append_eq {back rest : List Char} (ha : IsIdentifier a)
    (hb : IsIdentifier b) (hSame : a ++ back = b ++ rest)
    (hBack : ∀ c ∈ back.head?, continuesTagName c = false)
    (hRest : ∀ c ∈ rest.head?, endsTagName c = true) :
    a = b ∨ ∃ c more, b = a ++ c :: more ∧ 128 ≤ c.toNat := by
  rcases List.append_eq_append_iff.mp hSame with ⟨more, rfl, hMore⟩ | ⟨more, rfl, hMore⟩
  · cases more with
    | nil => exact Or.inl (List.append_nil a).symm
    | cons c more =>
        have hPart := hb.part c (by simp)
        have hUnseen := hBack c (by simp [hMore])
        exact Or.inr ⟨c, more, rfl, hPart.continuesTagName_eq_false_iff.mp hUnseen⟩
  · cases more with
    | nil => exact Or.inl (List.append_nil b)
    | cons c more =>
        have hPart := ha.part c (by simp)
        exact absurd (hRest c (by simp [hMore])) hPart.not_endsTagName

/-- A tag that is seen is one of those that are opened. -/
theorem ShowsTag.opensTag (ha : IsIdentifier a) (hb : IsIdentifier b) (h : ShowsTag a text)
    (hTags : OpensOnly b text) :
    OpensTag b text ∧ (a = b ∨ ∃ c more, b = a ++ c :: more ∧ 128 ≤ c.toNat) := by
  obtain ⟨front, back, hText, hBack⟩ := h
  rcases hTags front (a ++ back) hText with hSlash | hOpens
  · obtain ⟨c, hHead, hStart⟩ := ha.start
    rw [List.head?_append_of_ne_nil _ (List.ne_nil_of_mem (List.mem_of_head? hHead)), hHead,
      Option.some.injEq] at hSlash
    subst hSlash
    exact absurd hStart (by decide)
  · obtain ⟨rest, hSame, hRest⟩ := hOpens
    refine ⟨⟨front, _, hText, rest, hSame, hRest⟩, ?_⟩
    exact eq_or_exists_of_append_eq ha hb hSame hBack hRest

end

/-- In a template that opens tags of one name only, that name is found exactly if one is opened.
Another name is found exactly if it is the start of that one and a character beyond ASCII follows.
-/
theorem rendersTag_iff_of_opensOnly {a b template : String} (ha : IsIdentifier a.toList)
    (hb : IsIdentifier b.toList) (hDistinct : a ≠ b)
    (hTags : OpensOnly b.toList template.toList) :
    (rendersTag template b = true ↔ OpensTag b.toList template.toList) ∧
      (rendersTag template a = true ↔ OpensTag b.toList template.toList ∧
        ∃ c more, b.toList = a.toList ++ c :: more ∧ 128 ≤ c.toNat) := by
  rw [rendersTag_iff ha, rendersTag_iff hb]
  refine ⟨⟨fun h => (h.opensTag hb hb hTags).1, OpensTag.showsTag⟩, fun h => ?_, ?_⟩
  · obtain ⟨hOpens, hSame | hLonger⟩ := h.opensTag ha hb hTags
    · exact absurd (String.toList_injective hSame) hDistinct
    · exact ⟨hOpens, hLonger⟩
  · rintro ⟨hOpens, c, more, hLonger, hWide⟩
    obtain ⟨front, back, hText, hBack⟩ := hOpens.showsTag
    have hPart := hb.part c (by simp [hLonger])
    refine ⟨front, c :: (more ++ back), by rw [hText, hLonger]; simp, ?_⟩
    intro d hd
    rw [List.head?_cons, Option.mem_some_iff] at hd
    exact hd ▸ hPart.continuesTagName_eq_false_iff.mpr hWide

/-! Names and tags of given texts. -/

instance (c : Char) : Decidable (IsNamePart c) :=
  inferInstanceAs (Decidable (_ ∧ _))

instance (name : List Char) : Decidable (IsIdentifier name) :=
  decidable_of_iff
    (name.head?.any Script.isWordStart = true ∧ (name.all fun c => decide (IsNamePart c)) = true)
    ⟨fun h => ⟨(Option.any_eq_true _ _).mp h.1, by simpa using h.2⟩,
      fun h => ⟨(Option.any_eq_true _ _).mpr h.start, by simpa using h.part⟩⟩

instance (name text : List Char) : Decidable (StartsWithName name text) :=
  decidable_of_iff (name <+: text ∧ (text.drop name.length).head?.all endsTagName = true) <| by
    constructor
    · rintro ⟨⟨back, rfl⟩, hEnds⟩
      exact ⟨back, rfl, by simpa [Option.all_eq_true] using hEnds⟩
    · rintro ⟨back, rfl, hEnds⟩
      exact ⟨List.prefix_append _ _, by simpa [Option.all_eq_true] using hEnds⟩

theorem opensOnly_nil (name : List Char) : OpensOnly name [] := by
  intro front back hSplit
  simp at hSplit

/-- A text opens only tags of one name if none of another starts at its head or behind. -/
theorem opensOnly_cons_iff {name rest : List Char} {c : Char} : OpensOnly name (c :: rest) ↔
    (c = '<' → rest.head? = some '/' ∨ StartsWithName name rest) ∧ OpensOnly name rest := by
  constructor
  · intro h
    refine ⟨?_, fun front back hSplit => h (c :: front) back (by rw [hSplit]; rfl)⟩
    rintro rfl
    exact h [] rest rfl
  · rintro ⟨hHere, hRest⟩ front back hSplit
    cases front with
    | nil =>
        obtain ⟨rfl, rfl⟩ := List.cons_eq_cons.mp hSplit
        exact hHere rfl
    | cons d front => exact hRest front back (List.cons_eq_cons.mp hSplit).2

instance decidableOpensOnly (name : List Char) : (text : List Char) →
    Decidable (OpensOnly name text)
  | [] => isTrue (opensOnly_nil name)
  | _ :: rest =>
    have := decidableOpensOnly name rest
    decidable_of_iff _ opensOnly_cons_iff.symm

/-- A tag of several boxes is none of a box. -/
theorem rendersTag_boxes : IsIdentifier "Box".toList ∧ IsIdentifier "Boxes".toList ∧
    "Box" ≠ "Boxes" ∧ OpensOnly "Boxes".toList "a <Boxes b></Boxes>".toList ∧
    rendersTag "a <Boxes b></Boxes>" "Box" = false := by
  obtain ⟨ha, hb, hDistinct, hTags⟩ : IsIdentifier "Box".toList ∧ IsIdentifier "Boxes".toList ∧
      "Box" ≠ "Boxes" ∧ OpensOnly "Boxes".toList "a <Boxes b></Boxes>".toList := by decide
  refine ⟨ha, hb, hDistinct, hTags, ?_⟩
  rw [Bool.eq_false_iff, ne_eq, (rendersTag_iff_of_opensOnly ha hb hDistinct hTags).2]
  rintro ⟨-, c, more, hLonger, hWide⟩
  have hRest : "es".toList = c :: more := (List.append_right_inj "Box".toList).mp hLonger
  obtain ⟨rfl, -⟩ := List.cons_eq_cons.mp hRest
  exact absurd hWide (by decide)

/-- A tag of an accented name is taken for one of the name without the accented letter. -/
theorem rendersTag_accented : IsIdentifier "Box".toList ∧ IsIdentifier "Boxé".toList ∧
    "Box" ≠ "Boxé" ∧ OpensOnly "Boxé".toList "<Boxé/>".toList ∧
    rendersTag "<Boxé/>" "Box" = true := by decide

end ComponentAnalysis
