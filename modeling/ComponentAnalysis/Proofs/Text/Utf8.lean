import ComponentAnalysis.Text.Bytes
import ComponentAnalysis.Text.Search
import Mathlib.Data.List.Infix

/-! Texts searched byte by byte. The bytes of an ASCII text occur in those of another text only
where its characters do, for no byte of a character beyond ASCII is one of an ASCII character. -/
namespace ComponentAnalysis.Text

/-- The UTF-8 bytes of a text. -/
def utf8 (text : List Char) : List UInt8 := text.flatMap String.utf8EncodeChar

/-- How many bytes stand before the first occurrence of some bytes in others. -/
def findBytes? (needle : List UInt8) : List UInt8 → Option Nat
  | [] => if needle.isEmpty then some 0 else none
  | b :: rest =>
    if needle.isPrefixOf (b :: rest) then some 0 else (findBytes? needle rest).map (· + 1)

/-- The bytes from a position on, unless that is behind the last of them. -/
def bytesFrom? (start : Nat) (bytes : List UInt8) : Option (List UInt8) :=
  if start ≤ bytes.length then some (bytes.drop start) else none

def isAscii (c : Char) : Bool := c.toNat < 128

/-! The bytes of a text. -/

theorem utf8_cons (c : Char) (rest : List Char) :
    utf8 (c :: rest) = String.utf8EncodeChar c ++ utf8 rest := rfl

theorem utf8_append (a b : List Char) : utf8 (a ++ b) = utf8 a ++ utf8 b := List.flatMap_append

theorem length_utf8 (text : List Char) : (utf8 text).length = byteLength text := by
  induction text with
  | nil => rfl
  | cons c rest ih =>
      rw [utf8_cons, List.length_append, String.length_utf8EncodeChar, ih, byteLength]

/-- The bytes from the end of a front on are those of the rest. -/
theorem bytesFrom?_append (front rest : List Char) :
    bytesFrom? (byteLength front) (utf8 (front ++ rest)) = some (utf8 rest) := by
  have hBound : byteLength front ≤ (utf8 (front ++ rest)).length := by
    rw [length_utf8, byteLength_append]
    exact Nat.le_add_right _ _
  rw [bytesFrom?, if_pos hBound, utf8_append, ← length_utf8, List.drop_left]

/-- The bytes of a text in front of another are cut out as that text. -/
theorem takeBytes?_byteLength (a b : List Char) : takeBytes? (byteLength a) (a ++ b) = some a := by
  induction a with
  | nil => simp [byteLength, takeBytes?]
  | cons c a ih =>
    have hc : 0 < c.utf8Size := c.utf8Size_pos
    obtain ⟨n, hn⟩ : ∃ n, c.utf8Size + byteLength a = n + 1 :=
      ⟨_, (Nat.sub_add_cancel (by omega)).symm⟩
    have hle : c.utf8Size ≤ n + 1 := by omega
    have hsub : n + 1 - c.utf8Size = byteLength a := by omega
    simp [byteLength, hn, takeBytes?, hle, hsub, ih]

/-- The text between two positions that lie between characters is cut out as it is. -/
theorem slice?_append (front middle back : List Char) :
    slice? (byteLength front) (byteLength front + byteLength middle)
      (front ++ (middle ++ back)) = some middle := by
  rw [slice?, if_pos (Nat.le_add_right _ _), dropBytes?_byteLength, Option.bind_some,
    Nat.add_sub_cancel_left, takeBytes?_byteLength]

/-- No character takes up less than one byte. -/
theorem length_le_byteLength (text : List Char) : text.length ≤ byteLength text := by
  induction text with
  | nil => exact Nat.le_refl _
  | cons c rest ih =>
      have hSize : 0 < c.utf8Size := c.utf8Size_pos
      rw [List.length_cons, byteLength]
      omega

/-- Bytes that are cut out have the length that was asked for. -/
theorem byteLength_of_takeBytes? {n : Nat} {text front : List Char}
    (h : takeBytes? n text = some front) : byteLength front = n := by
  fun_induction takeBytes? n text generalizing front with
  | case1 text =>
      obtain rfl := Option.some.inj h
      rfl
  | case2 n => cases h
  | case3 n c rest hFits ih =>
      obtain ⟨behind, hBehind, rfl⟩ := Option.map_eq_some_iff.mp h
      rw [byteLength, ih hBehind, Nat.add_sub_cancel' hFits]
  | case4 n c rest hFits => cases h

theorem byteLength_of_slice? {start stop : Nat} {text middle : List Char}
    (h : slice? start stop text = some middle) : byteLength middle = stop - start := by
  obtain ⟨-, hSlice⟩ := Option.ite_none_right_eq_some.mp h
  obtain ⟨behind, -, hTake⟩ := Option.bind_eq_some_iff.mp hSlice
  exact byteLength_of_takeBytes? hTake

/-! The bytes of a character. -/

theorem isAscii_iff {c : Char} : isAscii c = true ↔ c.toNat < 128 := decide_eq_true_iff

/-- An ASCII character is one byte. -/
theorem utf8EncodeChar_of_isAscii {c : Char} (h : isAscii c = true) :
    String.utf8EncodeChar c = [UInt8.ofNat c.toNat] := by
  have hNarrow : c.val.toNat ≤ 0x7f := Nat.le_of_lt_succ (isAscii_iff.mp h)
  rw [String.utf8EncodeChar, if_pos hNarrow]
  rfl

/-- The bytes of all other characters are no ASCII bytes. -/
theorem toNat_ge_of_mem_utf8EncodeChar {c : Char} (h : isAscii c ≠ true) {b : UInt8}
    (hb : b ∈ String.utf8EncodeChar c) : 128 ≤ b.toNat := by
  have hWide : ¬ c.val.toNat ≤ 0x7f := fun hNarrow =>
    h (isAscii_iff.mpr (Nat.lt_succ_of_le hNarrow))
  rw [String.utf8EncodeChar, if_neg hWide] at hb
  split at hb
  · simp only [List.mem_cons, List.not_mem_nil, or_false] at hb
    rcases hb with rfl | rfl <;> rw [UInt8.toNat_ofNat'] <;> omega
  · split at hb
    · simp only [List.mem_cons, List.not_mem_nil, or_false] at hb
      rcases hb with rfl | rfl | rfl <;> rw [UInt8.toNat_ofNat'] <;> omega
    · simp only [List.mem_cons, List.not_mem_nil, or_false] at hb
      rcases hb with rfl | rfl | rfl | rfl <;> rw [UInt8.toNat_ofNat'] <;> omega

theorem ofNat_toNat_inj {a c : Char} (ha : isAscii a = true) (hc : isAscii c = true)
    (h : UInt8.ofNat a.toNat = UInt8.ofNat c.toNat) : a = c := by
  have hNat := congrArg UInt8.toNat h
  have ha' : a.toNat < 256 := Nat.lt_trans (isAscii_iff.mp ha) (by decide)
  have hc' : c.toNat < 256 := Nat.lt_trans (isAscii_iff.mp hc) (by decide)
  rw [UInt8.toNat_ofNat', UInt8.toNat_ofNat', Nat.mod_eq_of_lt ha', Nat.mod_eq_of_lt hc'] at hNat
  exact Char.toNat_inj.mp hNat

/-- A byte of an ASCII character is none of another character. -/
theorem eq_of_mem_utf8EncodeChar {a c : Char} (ha : isAscii a = true)
    (h : UInt8.ofNat a.toNat ∈ String.utf8EncodeChar c) : a = c := by
  by_cases hc : isAscii c = true
  · rw [utf8EncodeChar_of_isAscii hc, List.mem_singleton] at h
    exact ofNat_toNat_inj ha hc h
  · have hWide := toNat_ge_of_mem_utf8EncodeChar hc h
    rw [isAscii_iff] at ha
    rw [UInt8.toNat_ofNat', Nat.mod_eq_of_lt (Nat.lt_trans ha (by decide))] at hWide
    exact absurd ha (Nat.not_lt.mpr hWide)

/-! The search for an ASCII text. -/

variable {needle text : List Char}

/-- An ASCII text stands at the start of another one just if its bytes do. -/
theorem utf8_prefix_iff (hNeedle : needle.all isAscii = true) :
    utf8 needle <+: utf8 text ↔ needle <+: text := by
  induction needle generalizing text with
  | nil => exact ⟨fun _ => List.nil_prefix, fun _ => List.nil_prefix⟩
  | cons a needle ih =>
      rw [List.all_cons, Bool.and_eq_true] at hNeedle
      obtain ⟨ha, hRest⟩ := hNeedle
      rw [utf8_cons, utf8EncodeChar_of_isAscii ha, List.singleton_append]
      cases text with
      | nil => simp [utf8]
      | cons c text =>
          rw [List.cons_prefix_cons, utf8_cons]
          constructor
          · intro hPrefix
            obtain ⟨b, more, hBytes⟩ :=
              List.exists_cons_of_ne_nil (String.utf8EncodeChar_ne_nil (c := c))
            rw [hBytes, List.cons_append, List.cons_prefix_cons] at hPrefix
            -- The first byte of `c` is the one of `a`, which no other character has.
            obtain rfl : a = c :=
              eq_of_mem_utf8EncodeChar ha (by rw [hBytes, hPrefix.1]; exact List.mem_cons_self)
            obtain ⟨-, rfl⟩ :=
              List.cons_eq_cons.mp ((utf8EncodeChar_of_isAscii ha).symm.trans hBytes)
            exact ⟨rfl, (ih hRest).mp hPrefix.2⟩
          · rintro ⟨rfl, hPrefix⟩
            rw [utf8EncodeChar_of_isAscii ha, List.singleton_append, List.cons_prefix_cons]
            exact ⟨rfl, (ih hRest).mpr hPrefix⟩

theorem findBytes?_of_prefix {needle bytes : List UInt8} (h : needle <+: bytes) :
    findBytes? needle bytes = some 0 := by
  cases bytes with
  | nil => rw [findBytes?, List.prefix_nil.mp h, List.isEmpty_nil, if_pos rfl]
  | cons b rest => rw [findBytes?, if_pos (List.isPrefixOf_iff_prefix.mpr h)]

/-- Bytes that do not start the needle are passed over. -/
theorem findBytes?_append {mark : UInt8} {tail front rest : List UInt8} (hFront : mark ∉ front) :
    findBytes? (mark :: tail) (front ++ rest) =
      (findBytes? (mark :: tail) rest).map (front.length + ·) := by
  induction front with
  | nil => simp
  | cons b front ih =>
      rw [List.mem_cons, not_or] at hFront
      have hHere : ¬ (mark :: tail).isPrefixOf (b :: (front ++ rest)) = true := by
        rw [List.isPrefixOf_iff_prefix, List.cons_prefix_cons]
        exact fun hBoth => hFront.1 hBoth.1
      rw [List.cons_append, findBytes?, if_neg hHere, ih hFront.2, Option.map_map,
        List.length_cons]
      congr 1
      funext n
      exact Nat.add_right_comm _ _ _

/-- A character at which no occurrence starts is passed over with all of its bytes. -/
theorem findBytes?_utf8_cons {mark c : Char} {tail rest : List Char} (hMark : isAscii mark = true)
    (hHere : ¬ utf8 (mark :: tail) <+: utf8 (c :: rest)) :
    findBytes? (utf8 (mark :: tail)) (utf8 (c :: rest)) =
      (findBytes? (utf8 (mark :: tail)) (utf8 rest)).map (c.utf8Size + ·) := by
  have hBytes : utf8 (mark :: tail) = UInt8.ofNat mark.toNat :: utf8 tail := by
    rw [utf8_cons, utf8EncodeChar_of_isAscii hMark, List.singleton_append]
  by_cases hSame : mark = c
  · subst hSame
    rw [← String.length_utf8EncodeChar]
    rw [utf8_cons mark rest, utf8EncodeChar_of_isAscii hMark, List.singleton_append] at hHere ⊢
    rw [findBytes?, if_neg fun hPrefix => hHere (List.isPrefixOf_iff_prefix.mp hPrefix)]
    congr 1
    funext n
    exact Nat.add_comm n 1
  · rw [← String.length_utf8EncodeChar, utf8_cons c rest, hBytes]
    exact findBytes?_append fun hMem => hSame (eq_of_mem_utf8EncodeChar hMark hMem)

/-- A search of the bytes finds as many of them in front as the text has that is cut off. -/
theorem findBytes?_utf8 {mark : Char} {tail : List Char}
    (hNeedle : (mark :: tail).all isAscii = true) (text : List Char) :
    findBytes? (utf8 (mark :: tail)) (utf8 text) =
      (cut? (mark :: tail) text).map fun cut => byteLength cut.1 := by
  have hMark : isAscii mark = true := List.all_eq_true.mp hNeedle mark List.mem_cons_self
  induction text with
  | nil =>
      rw [utf8_cons, utf8EncodeChar_of_isAscii hMark]
      rfl
  | cons c rest ih =>
      rw [cut?]
      by_cases hHere : mark :: tail <+: c :: rest
      · rw [if_pos (List.isPrefixOf_iff_prefix.mpr hHere), Option.map_some, byteLength]
        exact findBytes?_of_prefix ((utf8_prefix_iff hNeedle).mpr hHere)
      · rw [if_neg fun hPrefix => hHere (List.isPrefixOf_iff_prefix.mp hPrefix), Option.map_map,
          findBytes?_utf8_cons hMark fun hPrefix => hHere ((utf8_prefix_iff hNeedle).mp hPrefix),
          ih, Option.map_map]
        rfl

end ComponentAnalysis.Text
