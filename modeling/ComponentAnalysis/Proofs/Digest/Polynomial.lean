import ComponentAnalysis.Proofs.Digest.Hexadecimal
import Mathlib.Algebra.BigOperators.Group.Finset.Basic
import Mathlib.Algebra.BigOperators.Ring.Finset
import Mathlib.Data.Int.ModEq
import Mathlib.Tactic.Ring

/-! What number a digest is. The code units of a text are the coefficients of a polynomial at 31,
taken to the signed 32-bit number that is congruent to it; a negative one is doubled and made
positive. -/
namespace ComponentAnalysis.Digest

/-- The polynomial in 31 whose coefficients are the state before a text and its units. -/
def polynomial (state : Int) (units : List Nat) : Int :=
  31 ^ units.length * state +
    ∑ i ∈ Finset.range units.length, 31 ^ (units.length - 1 - i) * (units.getD i 0 : Int)

/-- A signed 32-bit number is congruent to another number. -/
structure IsWord (x value : Int) : Prop where
  lower : -2 ^ 31 ≤ x
  upper : x < 2 ^ 31
  congr : x ≡ value [ZMOD 2 ^ 32]

/-- A number itself, or twice its amount if it is negative. -/
def unsigned (x : Int) : Int := if 0 ≤ x then x else -2 * x

/-- The number that the digest of a text has to write. -/
inductive HasValue : String → Int → Prop where
  | empty : HasValue "" initial
  | residue {text : String} {x : Int} (hText : text ≠ "")
      (hWord : IsWord x (polynomial initial (Text.units text))) : HasValue text (unsigned x)

/-- The numbers that one unit takes, in the order in which they come up: the shifted word, the state
taken off, the unit put on. -/
def stepNumbers (state : Int) (unit : Nat) : List Int :=
  let shifted := word (word state * 32)
  [shifted, shifted - state, shifted - state + unit]

def unitNumbers (state : Int) : List Nat → List Int
  | [] => []
  | unit :: units => stepNumbers state unit ++ unitNumbers (step state unit) units

/-- The numbers that one text takes, with the one that its fold gives. -/
def foldNumbers (state : Int) (text : String) : List Int :=
  unitNumbers state (Text.units text) ++ [fold state text]

/-- All numbers that the digest of a text takes. -/
def numbers (text : String) : List Int :=
  foldNumbers 0 "[object String]" ++ foldNumbers (fold 0 "[object String]") "string" ++
    foldNumbers initial text

/-! Words. -/

/-- Cutting off a number leaves the word that is congruent to it. -/
theorem isWord_word (value : Int) : IsWord (word value) value := by
  have hLower : -(((0x100000000 : Nat) : Int) / 2) ≤ word value := Int.le_bmod (by decide)
  have hUpper : word value < (((0x100000000 : Nat) : Int) + 1) / 2 := Int.bmod_lt (by decide)
  exact ⟨by omega, by omega, Int.bmod_emod⟩

/-- There is only one word congruent to a number. -/
theorem IsWord.eq {x y value : Int} (hx : IsWord x value) (hy : IsWord y value) : x = y := by
  have hCongr : x % 2 ^ 32 = y % 2 ^ 32 := hx.congr.trans hy.congr.symm
  have hLower := hx.lower
  have hUpper := hx.upper
  have hLower' := hy.lower
  have hUpper' := hy.upper
  omega

theorem word_modEq (value : Int) : word value ≡ value [ZMOD 2 ^ 32] := (isWord_word value).congr

/-! The polynomial unit by unit. -/

theorem polynomial_nil (state : Int) : polynomial state [] = state := by
  simp [polynomial]

/-- The state before the second unit is thirty-one times the state and the first unit. -/
theorem polynomial_cons (state : Int) (unit : Nat) (units : List Nat) :
    polynomial state (unit :: units) = polynomial (31 * state + unit) units := by
  have hTail : ∀ i ∈ Finset.range units.length,
      31 ^ (units.length + 1 - 1 - (i + 1)) * ((unit :: units).getD (i + 1) 0 : Int) =
        31 ^ (units.length - 1 - i) * (units.getD i 0 : Int) := by
    intro i _
    rw [List.getD_cons_succ]
    congr 2
    omega
  rw [polynomial, List.length_cons, Finset.sum_range_succ', Finset.sum_congr rfl hTail, polynomial,
    List.getD_cons_zero, Nat.add_sub_cancel, Nat.sub_zero]
  ring

/-- Congruent states give congruent numbers. -/
theorem polynomial_modEq {state state' : Int} (h : state ≡ state' [ZMOD 2 ^ 32])
    (units : List Nat) : polynomial state units ≡ polynomial state' units [ZMOD 2 ^ 32] :=
  (h.mul_left _).add_right _

/-- One unit, up to multiples of the word size. -/
theorem step_modEq (state : Int) (unit : Nat) : step state unit ≡ 31 * state + unit [ZMOD 2 ^ 32] :=
  calc step state unit
      ≡ word (word state * 32) - state + unit [ZMOD 2 ^ 32] := word_modEq _
    _ ≡ word state * 32 - state + unit [ZMOD 2 ^ 32] :=
        ((word_modEq _).sub_right _).add_right _
    _ ≡ state * 32 - state + unit [ZMOD 2 ^ 32] :=
        (((word_modEq _).mul_right _).sub_right _).add_right _
    _ = 31 * state + unit := by ring

/-- Unit by unit, the state stays congruent to the polynomial. -/
theorem foldl_step_modEq (units : List Nat) (state : Int) :
    units.foldl step state ≡ polynomial state units [ZMOD 2 ^ 32] := by
  induction units generalizing state with
  | nil => rw [List.foldl_nil, polynomial_nil]
  | cons unit units ih =>
      calc (unit :: units).foldl step state
          = units.foldl step (step state unit) := rfl
        _ ≡ polynomial (step state unit) units [ZMOD 2 ^ 32] := ih _
        _ ≡ polynomial (31 * state + unit) units [ZMOD 2 ^ 32] :=
            polynomial_modEq (step_modEq state unit) units
        _ = polynomial state (unit :: units) := (polynomial_cons state unit units).symm

/-- The units of a text leave the word of its polynomial. -/
theorem isWord_foldl_step {units : List Nat} (hNonempty : units ≠ []) (state : Int) :
    IsWord (units.foldl step state) (polynomial state units) := by
  have hCongr := foldl_step_modEq units state
  rcases List.eq_nil_or_concat units with rfl | ⟨front, last, rfl⟩
  · exact absurd rfl hNonempty
  · have hWord := isWord_word (word (word (front.foldl step state) * 32) -
      front.foldl step state + last)
    rw [List.concat_eq_append, List.foldl_append, List.foldl_cons, List.foldl_nil, ← step] at *
    exact ⟨hWord.lower, hWord.upper, hCongr⟩

/-! Texts. -/

theorem units_eq_nil_iff {text : String} : Text.units text = [] ↔ text = "" := by
  rw [Text.units, List.flatMap_eq_nil_iff]
  constructor
  · intro h
    rw [← String.toList_eq_nil_iff, List.eq_nil_iff_forall_not_mem]
    exact fun c hMem => Text.charUnits_ne_nil c (h c hMem)
  · rintro rfl c hMem
    simp at hMem

theorem fold_empty (state : Int) : fold state "" = state := rfl

/-- A text that is not empty gives its last state without the sign. -/
theorem fold_eq {text : String} (hText : text ≠ "") (state : Int) :
    fold state text = unsigned ((Text.units text).foldl step state) := by
  have hUnits : Text.units text ≠ [] := fun h => hText (units_eq_nil_iff.mp h)
  rw [fold, if_neg (by rwa [List.isEmpty_iff]), unsigned]
  split
  · rw [if_neg (by omega)]
  · rw [if_pos (by omega), Int.mul_comm]

theorem unsigned_nonneg (x : Int) : 0 ≤ unsigned x := by
  rw [unsigned]
  split <;> omega

/-- Doubling a negative word does not go beyond `2 ^ 32`. -/
theorem IsWord.unsigned_le {x value : Int} (h : IsWord x value) : unsigned x ≤ 2 ^ 32 := by
  have hLower := h.lower
  have hUpper := h.upper
  rw [unsigned]
  split <;> omega

/-- Only the least word reaches the ninth digit. -/
theorem IsWord.unsigned_lt {x value : Int} (h : IsWord x value) (hLeast : x ≠ -2 ^ 31) :
    unsigned x < 2 ^ 32 := by
  have hLower := h.lower
  have hUpper := h.upper
  rw [unsigned]
  split <;> omega

/-- The state before the digested text. -/
theorem initial_eq : initial = 0xbba68bf6 := by decide +kernel

/-- The fold of a text has the value that its digest writes. -/
theorem hasValue_fold (text : String) : HasValue text (fold initial text) := by
  by_cases hText : text = ""
  · rw [hText, fold_empty]
    exact .empty
  · rw [fold_eq hText]
    exact .residue hText (isWord_foldl_step (fun h => hText (units_eq_nil_iff.mp h)) initial)

/-- There is only one number that a digest has to write. -/
theorem HasValue.eq {text : String} {m n : Int} (hm : HasValue text m) (hn : HasValue text n) :
    m = n := by
  cases hm with
  | empty =>
      cases hn with
      | empty => rfl
      | residue hText _ => exact absurd rfl hText
  | residue hText hWord =>
      cases hn with
      | empty => exact absurd rfl hText
      | residue _ hWord' => rw [hWord.eq hWord']

theorem HasValue.nonneg {text : String} {n : Int} (h : HasValue text n) : 0 ≤ n := by
  cases h with
  | empty => rw [initial_eq]; decide
  | residue _ hWord => exact unsigned_nonneg _

/-- A digest writes the value of its text. -/
theorem HasValue.ofText_eq {text : String} {n : Int} (h : HasValue text n) :
    ofText text = hexadecimal n.toNat := by
  rw [ofText, h.eq (hasValue_fold text)]

/-! The numbers that come up. -/

/-- A state from which no number leaves 64 bits. -/
def IsState (state : Int) : Prop := -2 ^ 32 ≤ state ∧ state ≤ 2 ^ 32

/-- A number of 64 bits. -/
def IsMachine (n : Int) : Prop := -2 ^ 63 ≤ n ∧ n < 2 ^ 63

/-- A state fits 64 bits. -/
theorem IsState.isMachine {state : Int} (h : IsState state) : IsMachine state := by
  obtain ⟨hLower, hUpper⟩ := h
  constructor <;> omega

/-- Words are states. -/
theorem IsWord.isState {x value : Int} (h : IsWord x value) : IsState x := by
  have hLower := h.lower
  have hUpper := h.upper
  constructor <;> omega

/-- So is every state behind a unit. -/
theorem isState_step (state : Int) (unit : Nat) : IsState (step state unit) :=
  (isWord_word _).isState

/-- So is what the fold of a text gives. -/
theorem isState_fold {state : Int} (h : IsState state) (text : String) :
    IsState (fold state text) := by
  by_cases hText : text = ""
  · rwa [hText, fold_empty]
  · have hWord := isWord_foldl_step (fun h => hText (units_eq_nil_iff.mp h)) state
    rw [fold_eq hText]
    have hNonneg := unsigned_nonneg ((Text.units text).foldl step state)
    exact ⟨by omega, hWord.unsigned_le⟩

/-- On one unit no number leaves 64 bits. -/
theorem isMachine_of_mem_stepNumbers {state n : Int} {unit : Nat} (hState : IsState state)
    (hUnit : unit < 0x10000) (h : n ∈ stepNumbers state unit) : IsMachine n := by
  have hWord := isWord_word (word state * 32)
  have hLower := hWord.lower
  have hUpper := hWord.upper
  obtain ⟨hStateLower, hStateUpper⟩ := hState
  simp only [stepNumbers, List.mem_cons, List.not_mem_nil, or_false] at h
  rcases h with rfl | rfl | rfl <;> constructor <;> omega

/-- Nor does any on several units, as each step ends in a state again. -/
theorem isMachine_of_mem_unitNumbers {units : List Nat} (hUnits : ∀ u ∈ units, u < 0x10000)
    {state n : Int} (hState : IsState state) (h : n ∈ unitNumbers state units) : IsMachine n := by
  induction units generalizing state with
  | nil => exact absurd h (List.not_mem_nil)
  | cons unit units ih =>
      rw [unitNumbers, List.mem_append] at h
      rcases h with hStep | hRest
      · exact isMachine_of_mem_stepNumbers hState (hUnits unit List.mem_cons_self) hStep
      · exact ih (fun u hMem => hUnits u (List.mem_cons_of_mem _ hMem)) (isState_step state unit)
          hRest

theorem isMachine_of_mem_foldNumbers {text : String} {state n : Int} (hState : IsState state)
    (h : n ∈ foldNumbers state text) : IsMachine n := by
  rw [foldNumbers, List.mem_append, List.mem_singleton] at h
  rcases h with hUnit | rfl
  · refine isMachine_of_mem_unitNumbers (fun u hMem => ?_) hState hUnit
    obtain ⟨c, -, hUnits⟩ := List.mem_flatMap.mp hMem
    exact Text.charUnits_lt hUnits
  · exact (isState_fold hState text).isMachine

/-- Nor does any in the digest of a whole text. -/
theorem isMachine_of_mem_numbers {text : String} {n : Int} (h : n ∈ numbers text) :
    IsMachine n := by
  have hZero : IsState 0 := ⟨by decide, by decide⟩
  have hTag := isState_fold hZero "[object String]"
  rw [numbers, List.mem_append, List.mem_append] at h
  rcases h with (hFirst | hSecond) | hText
  · exact isMachine_of_mem_foldNumbers hZero hFirst
  · exact isMachine_of_mem_foldNumbers hTag hSecond
  · exact isMachine_of_mem_foldNumbers (isState_fold hTag "string") hText

/-- What a digest says about its text. -/
structure IsDigest (text digest : String) : Prop where
  value : ∃ n : Nat, HasValue text n ∧ Writes digest n
  length_empty : text = "" → digest.length = 8
  length : ∀ x, text ≠ "" → IsWord x (polynomial initial (Text.units text)) → x ≠ -2 ^ 31 →
    digest.length = 8
  least : text ≠ "" → IsWord (-2 ^ 31) (polynomial initial (Text.units text)) →
    digest = "100000000"

/-- A digest writes the number of its text, without overflow on the way, and two digests are equal
exactly when the numbers of their texts are. -/
theorem isDigest_ofText (text : String) :
    IsDigest text (ofText text) ∧ (∀ n ∈ numbers text, IsMachine n) ∧
      ∀ other m n, HasValue text m → HasValue other n → (ofText text = ofText other ↔ m = n) := by
  refine ⟨⟨?_, ?_, ?_, ?_⟩, fun n => isMachine_of_mem_numbers, ?_⟩
  · have hValue := hasValue_fold text
    refine ⟨(fold initial text).toNat, ?_, writes_hexadecimal _⟩
    rwa [Int.toNat_of_nonneg hValue.nonneg]
  · rintro rfl
    rw [HasValue.empty.ofText_eq, initial_eq]
    exact length_hexadecimal_eq (by decide)
  · intro x hText hWord hLeast
    have hBound := hWord.unsigned_lt hLeast
    rw [(HasValue.residue hText hWord).ofText_eq]
    exact length_hexadecimal_eq (by omega)
  · intro hText hWord
    rw [(HasValue.residue hText hWord).ofText_eq]
    decide
  · intro other m n hm hn
    have hNonneg := hm.nonneg
    have hNonneg' := hn.nonneg
    rw [hm.ofText_eq, hn.ofText_eq, hexadecimal_inj]
    omega

/-- A text with the least word. -/
example : ofText "cuvcrith" = "100000000" := by decide +kernel

end ComponentAnalysis.Digest
