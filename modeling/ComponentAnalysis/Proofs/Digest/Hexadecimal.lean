import ComponentAnalysis.Digest

/-! How a digest is written: the digits of its number, without needless zeros beyond the eighth. The
number is read back from the digits, so different numbers are written differently. -/
namespace ComponentAnalysis.Digest

/-- A character is one of the sixteen digits. -/
def IsDigit (c : Char) : Prop := ∃ d < 16, c = Nat.digitChar d

theorem isDigit_of_mem_toDigits {n : Nat} {c : Char} (h : c ∈ Nat.toDigits 16 n) : IsDigit c := by
  induction n using Nat.strongRecOn with
  | ind n ih =>
      by_cases hSmall : n < 16
      · rw [Nat.toDigits_of_lt_base hSmall, List.mem_singleton] at h
        exact ⟨n, hSmall, h⟩
      · rw [Nat.toDigits_of_base_le (by omega) (by omega), List.mem_append] at h
        rcases h with hFront | hLast
        · exact ih (n / 16) (by omega) hFront
        · exact ⟨n % 16, by omega, List.mem_singleton.mp hLast⟩

/-- The value of a lower-case hexadecimal digit. -/
def digitValue (c : Char) : Nat :=
  if c.isDigit then c.toNat - '0'.toNat else 10 + (c.toNat - 'a'.toNat)

/-- The number that hexadecimal digits denote. -/
def numberOf (digits : List Char) : Nat := digits.foldl (fun n c => 16 * n + digitValue c) 0

/-- A text is the lower-case hexadecimal form of a number, filled up with zeros to eight digits. -/
structure Writes (text : String) (n : Nat) : Prop where
  digits : ∀ c ∈ text.toList, IsDigit c
  number : numberOf text.toList = n
  filled : 8 ≤ text.length
  needed : 8 < text.length → text.toList.head? ≠ some '0'

/-- Digits are read as they are written. -/
theorem digitValue_digitChar {d : Nat} (h : d < 16) : digitValue (Nat.digitChar d) = d := by
  have hAll : ∀ d < 16, digitValue (Nat.digitChar d) = d := by decide
  exact hAll d h

/-- A digit at the end counts once, all before it sixteen times as much. -/
theorem numberOf_concat (digits : List Char) (c : Char) :
    numberOf (digits ++ [c]) = 16 * numberOf digits + digitValue c := by
  rw [numberOf, List.foldl_append, List.foldl_cons, List.foldl_nil, numberOf]

/-- A number is read back from its digits. -/
theorem numberOf_toDigits (n : Nat) : numberOf (Nat.toDigits 16 n) = n := by
  induction n using Nat.strongRecOn with
  | ind n ih =>
      by_cases hSmall : n < 16
      · rw [Nat.toDigits_of_lt_base hSmall]
        simp only [numberOf, List.foldl_cons, List.foldl_nil, digitValue_digitChar hSmall]
        omega
      · rw [Nat.toDigits_of_base_le (by omega) (by omega), numberOf_concat, ih (n / 16) (by omega),
          digitValue_digitChar (Nat.mod_lt n (by omega))]
        omega

/-- Zeros in front do not change the number. -/
theorem numberOf_zeros_append (count : Nat) (digits : List Char) :
    numberOf (List.replicate count '0' ++ digits) = numberOf digits := by
  induction count with
  | zero => rfl
  | succ count ih => exact ih

/-- A positive number does not start with a zero. -/
theorem head?_toDigits_ne_zero {n : Nat} (hPos : 0 < n) :
    (Nat.toDigits 16 n).head? ≠ some '0' := by
  induction n using Nat.strongRecOn with
  | ind n ih =>
      by_cases hSmall : n < 16
      · have hAll : ∀ d < 16, 0 < d → some (Nat.digitChar d) ≠ some '0' := by decide
        rw [Nat.toDigits_of_lt_base hSmall]
        exact hAll n hSmall hPos
      · have hFront := ih (n / 16) (by omega) (by omega)
        rw [Nat.toDigits_of_base_le (by omega) (by omega), List.head?_append]
        cases hHead : (Nat.toDigits 16 (n / 16)).head? with
        | none => exact absurd (List.head?_eq_none_iff.mp hHead) Nat.toDigits_ne_nil
        | some c => rwa [hHead] at hFront

/-- A number is written by its digits, with zeros in front up to eight. -/
theorem toList_hexadecimal (n : Nat) :
    (hexadecimal n).toList =
      List.replicate (8 - (Nat.toDigits 16 n).length) '0' ++ Nat.toDigits 16 n := by
  rw [hexadecimal, String.toList_ofList]

/-- Eight digits are written at least. -/
theorem length_hexadecimal (n : Nat) :
    (hexadecimal n).length = max 8 (Nat.toDigits 16 n).length := by
  rw [← String.length_toList, toList_hexadecimal, List.length_append, List.length_replicate]
  omega

/-- Words need no more than eight. -/
theorem length_hexadecimal_eq {n : Nat} (h : n < 0x100000000) : (hexadecimal n).length = 8 := by
  have hLength : (Nat.toDigits 16 n).length ≤ 8 :=
    (Nat.length_toDigits_le_iff (by omega) (by omega)).mpr h
  rw [length_hexadecimal]
  omega

theorem isDigit_of_mem_hexadecimal {n : Nat} {c : Char} (h : c ∈ (hexadecimal n).toList) :
    IsDigit c := by
  rw [toList_hexadecimal, List.mem_append] at h
  rcases h with hPadding | hDigits
  · exact ⟨0, by omega, List.eq_of_mem_replicate hPadding⟩
  · exact isDigit_of_mem_toDigits hDigits

/-- The text of a number is its hexadecimal form. -/
theorem writes_hexadecimal (n : Nat) : Writes (hexadecimal n) n := by
  constructor
  · exact fun c => isDigit_of_mem_hexadecimal
  · rw [toList_hexadecimal, numberOf_zeros_append, numberOf_toDigits]
  · rw [length_hexadecimal]
    exact Nat.le_max_left _ _
  · intro hLong
    -- More than eight digits are those of the number itself, which is then not zero.
    rw [length_hexadecimal] at hLong
    have hFull : 8 - (Nat.toDigits 16 n).length = 0 := by omega
    have hPos : 0 < n := by
      apply Nat.pos_of_ne_zero
      rintro rfl
      simp at hLong
    rw [toList_hexadecimal, hFull, List.replicate_zero, List.nil_append]
    exact head?_toDigits_ne_zero hPos

theorem hexadecimal_inj {m n : Nat} : hexadecimal m = hexadecimal n ↔ m = n := by
  constructor
  · intro h
    rw [← (writes_hexadecimal m).number, h, (writes_hexadecimal n).number]
  · exact congrArg hexadecimal

end ComponentAnalysis.Digest
