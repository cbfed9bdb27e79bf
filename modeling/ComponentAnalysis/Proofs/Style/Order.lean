import ComponentAnalysis.Style.Usage
import Mathlib.Data.List.Perm.Basic

/-! The order of use names every component once. -/
namespace ComponentAnalysis.Usage

variable {Ast : Type}

theorem mem_of_next?_eq_some {counts unplaced : List Nat} {i : Nat}
    (h : next? counts unplaced = some i) : i ∈ unplaced := by
  rw [next?, Option.orElse_eq_orElse, Option.orElse_eq_or, Option.or_eq_some_iff] at h
  rcases h with hFree | ⟨-, hFirst⟩
  · exact List.mem_of_find?_eq_some hFree
  · exact List.mem_of_head? hFirst

/-- As long as a component is left, one is placed next. -/
theorem next?_eq_none_iff {counts unplaced : List Nat} :
    next? counts unplaced = none ↔ unplaced = [] := by
  rw [next?, Option.orElse_eq_orElse, Option.orElse_eq_or, Option.or_eq_none_iff,
    List.head?_eq_none_iff]
  constructor
  · exact fun h => h.2
  · rintro rfl
    exact ⟨rfl, rfl⟩

/-- Each step takes one of the components that are left, so enough steps place all of them. -/
theorem place_perm (uses : List (List Nat)) {steps : Nat} {counts unplaced : List Nat}
    (h : unplaced.length ≤ steps) : (place uses steps counts unplaced).Perm unplaced := by
  induction steps generalizing counts unplaced with
  | zero =>
      rw [List.eq_nil_of_length_eq_zero (Nat.le_zero.mp h)]
      exact List.Perm.nil
  | succ steps ih =>
      rw [place]
      cases hNext : next? counts unplaced with
      | none =>
          rw [next?_eq_none_iff.mp hNext]
      | some i =>
          have hMem := mem_of_next?_eq_some hNext
          have hLength := List.length_erase_of_mem hMem
          have hRest : (unplaced.erase i).length ≤ steps := by omega
          exact ((ih hRest).cons i).trans (List.perm_cons_erase hMem).symm

/-- Every component has one place in the order. -/
theorem order_perm (components : List (Component Ast)) :
    (order components).Perm (List.range components.length) :=
  place_perm _ (Nat.le_of_eq List.length_range)

/-- The order is made of the components of the file. -/
theorem mem_order {components : List (Component Ast)} {i : Nat} :
    i ∈ order components ↔ i < components.length := by
  rw [(order_perm components).mem_iff, List.mem_range]

end ComponentAnalysis.Usage
