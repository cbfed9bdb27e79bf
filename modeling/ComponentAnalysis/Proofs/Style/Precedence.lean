import ComponentAnalysis.Proofs.Style.Placing
import Mathlib.Data.Fintype.Card
import Mathlib.Data.Fintype.EquivFin
import Mathlib.Data.List.Sort
import Mathlib.Order.WellFounded

/-! The order of use is the least one in which every component stands behind its users, as long as
no component renders itself through others. -/
namespace ComponentAnalysis.Usage

variable {Ast : Type}

section

variable (components : List (Component Ast))

/-- No component renders itself, be it through other components. -/
def Acyclic : Prop := ∀ i, ¬ Relation.TransGen (Renders components) i i

/-- Wherever a component stands, the components that render it stand before it. -/
def UsersFirst (order : List Nat) : Prop :=
  ∀ before i after, order = before ++ i :: after → ∀ user, Renders components user i →
    user ∈ before

/-- What an order of all components is like that takes the next one each time. -/
structure GreedyOrder (order : List Nat) : Prop where
  perm : order.Perm (List.range components.length)
  next : ∀ before i after, order = before ++ i :: after → IsNext components before i
  usersFirst : Acyclic components → UsersFirst components order
  least : ∀ other : List Nat, other.Perm (List.range components.length) →
    UsersFirst components other → order = other ∨ List.Lex (· < ·) order other
  sourceOrder : (∀ user used, ¬ Renders components user used) →
    order = List.range components.length

/-- A run to an order that counts users exactly. Each count is the number of components left that
render a component, so none is already zero when a user is taken off it, and the run ends with no
component left. -/
structure ExactRun (order : List Nat) : Prop where
  finish : ∃ last, Reaches components order last []
  count : ∀ placed counts unplaced, Reaches components placed counts unplaced →
    ∀ j < components.length, counts[j]? =
      some (users components ((List.range components.length).filter fun i => i ∉ placed) j)
  positive : ∀ placed counts unplaced i, Reaches components placed counts unplaced →
    next? counts unplaced = some i → ∀ j, Renders components i j →
      ∃ count, counts[j]? = some (count + 1)

end

variable {components : List (Component Ast)}

/-- Without cycles, some component left is free: users cannot be followed upwards forever. -/
theorem exists_isFree (hAcyclic : Acyclic components) {placed : List Nat} {i : Nat}
    (hLeft : IsLeft components placed i) :
    ∃ j, IsLeft components placed j ∧ IsFree components placed j := by
  let above (a b : Fin components.length) : Prop := Relation.TransGen (Renders components) a b
  have : IsTrans (Fin components.length) above := ⟨fun _ _ _ => Relation.TransGen.trans⟩
  have : Std.Irrefl above := ⟨fun a => hAcyclic a⟩
  have hWellFounded : WellFounded above := Finite.wellFounded_of_trans_of_irrefl above
  obtain ⟨j, hOut, hTop⟩ := hWellFounded.has_min {a | a.val ∉ placed} ⟨⟨i, hLeft.1⟩, hLeft.2⟩
  refine ⟨j, ⟨j.isLt, hOut⟩, fun user hUser hRenders => ?_⟩
  exact hTop ⟨user, hUser.1⟩ hUser.2 (Relation.TransGen.single hRenders)

theorem IsNext.isFree {placed : List Nat} {i : Nat} (h : IsNext components placed i)
    (hAcyclic : Acyclic components) : IsFree components placed i := by
  cases h with
  | free _ hFree _ => exact hFree
  | first hLeft hNone _ =>
      obtain ⟨j, hOther, hFree⟩ := exists_isFree hAcyclic hLeft
      exact absurd hFree (hNone j hOther)

/-- Nothing that is left and free stands before the next component in the file. -/
theorem IsNext.le_of_isFree {placed : List Nat} {i j : Nat} (h : IsNext components placed i)
    (hLeft : IsLeft components placed j) (hFree : IsFree components placed j) : i ≤ j := by
  cases h with
  | free _ _ hFirst => exact hFirst j hLeft hFree
  | first _ hNone _ => exact absurd hFree (hNone j hLeft)

theorem usersFirst_order (hAcyclic : Acyclic components) :
    UsersFirst components (order components) := fun _ _ _ hSplit =>
  isFree_iff.mp ((isNext_of_order_eq hSplit).isFree hAcyclic)

/-- A component behind others in an order of all components is not one of them. -/
theorem isLeft_of_perm {before after other : List Nat} {i : Nat}
    (hPerm : other.Perm (List.range components.length)) (hSplit : other = before ++ i :: after) :
    IsLeft components before i := by
  have hDistinct : other.Nodup := hPerm.nodup_iff.mpr List.nodup_range
  rw [hSplit] at hPerm hDistinct
  constructor
  · exact List.mem_range.mp (hPerm.mem_iff.mp (by simp))
  · exact fun hMem => (List.nodup_append.mp hDistinct).2.2 i hMem i (by simp) rfl

/-- Behind a common start the order goes on with the least component that can stand there. -/
theorem rest_eq_or_lex {before rest otherRest : List Nat} {other : List Nat}
    (hPerm : other.Perm (List.range components.length)) (hOther : UsersFirst components other)
    (hOrder : order components = before ++ rest) (hSplit : other = before ++ otherRest) :
    rest = otherRest ∨ List.Lex (· < ·) rest otherRest := by
  induction rest generalizing before otherRest with
  | nil =>
      cases otherRest with
      | nil => exact Or.inl rfl
      | cons j otherRest => exact Or.inr List.Lex.nil
  | cons i rest ih =>
      cases otherRest with
      | nil =>
          -- Both orders have all components, so neither ends before the other.
          have hLength := ((order_perm components).trans hPerm.symm).length_eq
          rw [hOrder, hSplit] at hLength
          simp at hLength
      | cons j otherRest =>
          have hFree : IsFree components before j := isFree_iff.mpr (hOther _ _ _ hSplit)
          have hFirst := (isNext_of_order_eq hOrder).le_of_isFree (isLeft_of_perm hPerm hSplit)
            hFree
          rcases Nat.lt_or_eq_of_le hFirst with hLess | rfl
          · exact Or.inr (List.Lex.rel hLess)
          · have hOrderNext : order components = (before ++ [i]) ++ rest := by
              rw [hOrder, List.append_cons]
            have hOtherNext : other = (before ++ [i]) ++ otherRest := by
              rw [hSplit, List.append_cons]
            rcases ih hOrderNext hOtherNext with rfl | hLex
            · exact Or.inl rfl
            · exact Or.inr (List.Lex.cons hLex)

theorem order_eq_or_lex {other : List Nat}
    (hPerm : other.Perm (List.range components.length)) (hOther : UsersFirst components other) :
    order components = other ∨ List.Lex (· < ·) (order components) other :=
  rest_eq_or_lex hPerm hOther (List.nil_append _).symm (List.nil_append _).symm

/-- If nothing renders anything, each component stands before those behind it in the file. -/
theorem pairwise_le_of_not_renders (hNone : ∀ user used, ¬ Renders components user used)
    {before rest : List Nat} (hSplit : order components = before ++ rest) :
    rest.Pairwise (· ≤ ·) := by
  induction rest generalizing before with
  | nil => exact List.Pairwise.nil
  | cons i rest ih =>
      have hTail := ih (hSplit.trans (List.append_cons before i rest))
      refine List.pairwise_cons.mpr ⟨fun j hMem => ?_, hTail⟩
      obtain ⟨middle, after, rfl⟩ := List.append_of_mem hMem
      have hLater : order components = (before ++ i :: middle) ++ j :: after := by
        rw [hSplit, List.append_assoc, List.cons_append]
      have hLeft := isLeft_of_perm (order_perm components) hLater
      have hOut : j ∉ before := fun hIn => hLeft.2 (List.mem_append_left _ hIn)
      exact (isNext_of_order_eq hSplit).le_of_isFree ⟨hLeft.1, hOut⟩
        fun user _ => hNone user j

theorem order_eq_range (hNone : ∀ user used, ¬ Renders components user used) :
    order components = List.range components.length :=
  (order_perm components).eq_of_pairwise'
    (pairwise_le_of_not_renders hNone (List.nil_append _).symm)
    (List.pairwise_lt_range.imp Nat.le_of_lt)

/-- The order of use is greedy, and the run that finds it counts users exactly. -/
theorem greedyOrder_order (components : List (Component Ast)) :
    GreedyOrder components (order components) ∧ ExactRun components (order components) := by
  constructor
  · exact
      { perm := order_perm components
        next := fun _ _ _ hSplit => isNext_of_order_eq hSplit
        usersFirst := usersFirst_order
        least := fun _ hPerm hOther => order_eq_or_lex hPerm hOther
        sourceOrder := order_eq_range }
  · refine ⟨order_reaches components, fun placed counts unplaced hRun j hBound => ?_,
      fun placed counts unplaced i hRun hNext j hRenders => ?_⟩
    · have hCounts := hRun.countsUsers
      exact hCounts.unplaced_eq ▸ hCounts.counts j hBound
    · exact hRun.countsUsers.count_pos (mem_of_next?_eq_some hNext) (mem_usedBy.mpr hRenders)

end ComponentAnalysis.Usage
