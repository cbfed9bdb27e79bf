import ComponentAnalysis.Proofs.Style.Precedence
import Mathlib.Data.List.Induction

/-! Where cycles put the order of use. When none of the components left is free, the first of them
in the file is placed, whether or not it is on a cycle. So a component can come before one that
renders it, although it renders nothing itself. -/
namespace ComponentAnalysis.Usage

variable {Ast : Type}

section

variable (components : List (Component Ast))

/-- A component renders another, and neither stands before a place in the file. -/
def RendersFrom (place user used : Nat) : Prop :=
  place ≤ user ∧ place ≤ used ∧ Renders components user used

/-- A cycle holds a component up: the component is on it, or is rendered by it, be it through other
components. All of them stand in the file from a place on. -/
def IsHeldUp (place i : Nat) : Prop :=
  ∃ j, Relation.TransGen (RendersFrom components place) j j ∧
    Relation.ReflTransGen (RendersFrom components place) j i

end

variable {components : List (Component Ast)}

/-- A component that is held up has a user that is held up as well. -/
theorem IsHeldUp.exists_user {place i : Nat} (h : IsHeldUp components place i) :
    place ≤ i ∧ ∃ user, Renders components user i ∧ IsHeldUp components place user := by
  obtain ⟨j, hCycle, hPath⟩ := h
  obtain ⟨user, hUser, -, hFrom, hRenders⟩ :=
    Relation.TransGen.tail'_iff.mp (hCycle.trans_left hPath)
  exact ⟨hFrom, user, hRenders, j, hCycle, hUser⟩

/-- When no component left is free, each is held up by a cycle: users can be followed upwards
forever, and there are finitely many of them. -/
theorem isHeldUp_of_not_isFree {placed : List Nat} {place i : Nat}
    (hNone : ∀ j, IsLeft components placed j → ¬ IsFree components placed j)
    (hFrom : ∀ j, IsLeft components placed j → place ≤ j) (hLeft : IsLeft components placed i) :
    IsHeldUp components place i := by
  by_contra hNot
  let upTo (a b : Nat) : Prop := Relation.ReflTransGen (RendersFrom components place) a b
  let above (a b : Fin components.length) : Prop :=
    Relation.TransGen (RendersFrom components place) a b ∧ upTo b i
  have : IsTrans (Fin components.length) above := ⟨fun _ _ _ hab hbc => ⟨hab.1.trans hbc.1, hbc.2⟩⟩
  have : Std.Irrefl above := ⟨fun a hCycle => hNot ⟨a, hCycle.1, hCycle.2⟩⟩
  have hWellFounded : WellFounded above := Finite.wellFounded_of_trans_of_irrefl above
  obtain ⟨j, ⟨hOut, hPath⟩, hTop⟩ := hWellFounded.has_min
    {a | IsLeft components placed a.val ∧ upTo a.val i} ⟨⟨i, hLeft.1⟩, hLeft, .refl⟩
  -- A user that is left would stand above the topmost component.
  refine hNone j hOut fun user hUser hRenders => ?_
  have hStep : RendersFrom components place user j := ⟨hFrom user hUser, hFrom j hOut, hRenders⟩
  exact hTop ⟨user, hUser.1⟩ ⟨hUser, .head hStep hPath⟩ ⟨.single hStep, hPath⟩

/-- As long as a component is left, nothing is placed that cycles from its place on hold up. Such a
component would have a user left, so it could only be the first of those left. -/
theorem not_isHeldUp_of_placed {placed rest : List Nat} {place : Nat}
    (hSplit : order components = placed ++ rest) (hLeft : IsLeft components placed place) :
    ∀ i ∈ placed, ¬ IsHeldUp components place i := by
  induction placed using List.reverseRecOn generalizing rest with
  | nil => simp
  | append_singleton placed last ih =>
      have hBefore : IsLeft components placed place :=
        ⟨hLeft.1, fun hMem => hLeft.2 (List.mem_append_left _ hMem)⟩
      rw [List.append_assoc, List.singleton_append] at hSplit
      have hPlaced := ih hSplit hBefore
      have hLast : ¬ IsHeldUp components place last := by
        intro hHeld
        obtain ⟨hFrom, user, hRenders, hUser⟩ := hHeld.exists_user
        have hUserLeft : IsLeft components placed user :=
          ⟨hRenders.user_lt, fun hMem => hPlaced user hMem hUser⟩
        -- With a user left, the last component was not free but the first one left.
        cases isNext_of_order_eq hSplit with
        | free _ hFree _ => exact hFree user hUserLeft hRenders
        | first _ _ hFirst =>
            obtain rfl : last = place := Nat.le_antisymm (hFirst place hBefore) hFrom
            exact hLeft.2 (by simp)
      intro i hi
      rcases List.mem_append.mp hi with hIn | hIn
      · exact hPlaced i hIn
      · exact List.mem_singleton.mp hIn ▸ hLast

/-- Where a component comes in the order of use. -/
theorem exists_order_eq {i : Nat} (hBound : i < components.length) :
    ∃ before after, order components = before ++ i :: after ∧ IsLeft components before i := by
  obtain ⟨before, after, hSplit⟩ := List.append_of_mem (mem_order.mpr hBound)
  exact ⟨before, after, hSplit, isLeft_of_perm (order_perm components) hSplit⟩

/-- A component comes before one that it renders exactly if no cycle holds it up whose components,
and those between, all stand in the file from the place of the other one on. -/
theorem sublist_order_iff {user used : Nat} (hRenders : Renders components user used) :
    [user, used].Sublist (order components) ↔ ¬ IsHeldUp components used user := by
  obtain ⟨before, after, hSplit, hLeft⟩ := exists_order_eq hRenders.used_lt
  constructor
  · intro hOrder
    obtain ⟨front, back, hCut, hUser, hUsed⟩ := List.cons_sublist_iff.mp hOrder
    obtain ⟨middle, rest, rfl⟩ := List.append_of_mem (List.singleton_sublist.mp hUsed)
    rw [← List.append_assoc] at hCut
    have hOut := isLeft_of_perm (order_perm components) hCut
    exact not_isHeldUp_of_placed hCut hOut user (List.mem_append_left _ hUser)
  · intro hNot
    have hBefore : user ∈ before := by
      by_contra hOut
      have hUser : IsLeft components before user := ⟨hRenders.user_lt, hOut⟩
      cases isNext_of_order_eq hSplit with
      | free _ hFree _ => exact hFree user hUser hRenders
      | first _ hNone hFirst => exact hNot (isHeldUp_of_not_isFree hNone hFirst hUser)
    rw [hSplit]
    exact List.cons_sublist_iff.mpr ⟨before, used :: after, rfl, hBefore, by simp⟩

/-- A list and its items render each other, and the list renders a card. So does a page. -/
def nestedLists : List (Component Unit) :=
  [{ name := "Card", template := some "<p/>" },
    { name := "Page", template := some "<Card/>" },
    { name := "List", template := some "<Item/><Card/>" },
    { name := "Item", template := some "<List/>" }]

/-- The page comes before the card, for nothing renders it. -/
theorem sublist_order_page :
    Renders nestedLists 1 0 ∧ [1, 0].Sublist (order nestedLists) := by
  have hRenders : Renders nestedLists 1 0 := by decide +kernel
  refine ⟨hRenders, (sublist_order_iff hRenders).mpr fun hHeld => ?_⟩
  obtain ⟨-, user, hUser, -⟩ := hHeld.exists_user
  have hNone : ∀ user < nestedLists.length, ¬ Renders nestedLists user 1 := by decide +kernel
  exact hNone user hUser.user_lt hUser

/-- The list comes behind the card that it renders, although the card renders nothing. The cycle is
broken at the card, which is not on it. -/
theorem not_sublist_order_card :
    Renders nestedLists 2 0 ∧ ¬ Relation.TransGen (Renders nestedLists) 0 2 ∧
      ¬ [2, 0].Sublist (order nestedLists) := by
  obtain ⟨hRenders, hNone, hOrder⟩ : Renders nestedLists 2 0 ∧
      (∀ used < nestedLists.length, ¬ Renders nestedLists 0 used) ∧
      order nestedLists = [1, 0, 2, 3] := by decide +kernel
  refine ⟨hRenders, fun hThrough => ?_, by rw [hOrder]; decide⟩
  obtain ⟨used, hUsed, -⟩ := Relation.TransGen.head'_iff.mp hThrough
  exact hNone used hUsed.used_lt hUsed

end ComponentAnalysis.Usage
