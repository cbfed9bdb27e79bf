import ComponentAnalysis.Proofs.Style.Order
import Mathlib.Data.List.Count

/-! How the order of use comes about. Components are placed one after the other, and for each
component a run counts the components left that render it. So the next one is the first of those
that no other component left renders, or else the first of all. -/
namespace ComponentAnalysis.Usage

variable {Ast : Type}

section

variable (components : List (Component Ast))

/-- The template of a component has a tag of another component. -/
def Renders (user used : Nat) : Prop :=
  user ≠ used ∧ ∃ a b template, components[user]? = some a ∧ components[used]? = some b ∧
    a.template = some template ∧ rendersTag template b.name = true

/-- The components that a component renders. -/
def usedBy (user : Nat) : List Nat := ((uses components)[user]?).getD []

variable {components} in
/-- The uses that a run reads off the templates are those of the tags in them. -/
theorem mem_usedBy {user used : Nat} :
    used ∈ usedBy components user ↔ Renders components user used := by
  rw [usedBy, uses, List.getElem?_map, List.getElem?_zipIdx, Nat.zero_add]
  cases hUser : components[user]? with
  | none => simp [Renders, hUser]
  | some a =>
      cases hTemplate : a.template with
      | none => simp [Renders, hUser, hTemplate]
      | some template =>
          simp only [Option.map_some, Option.getD_some, hTemplate, List.mem_filterMap,
            Prod.exists, List.mem_zipIdx_iff_getElem?, Option.ite_none_right_eq_some,
            Option.some.injEq]
          constructor
          · rintro ⟨b, j, hUsed, ⟨hOther, hTag⟩, rfl⟩
            exact ⟨Ne.symm hOther, a, b, template, hUser, hUsed, hTemplate, hTag⟩
          · rintro ⟨hOther, a', b, template', hUser', hUsed, hTemplate', hTag⟩
            rw [hUser, Option.some.injEq] at hUser'
            rw [← hUser', hTemplate, Option.some.injEq] at hTemplate'
            exact ⟨b, used, hUsed, ⟨Ne.symm hOther, hTemplate' ▸ hTag⟩, rfl⟩

instance (user used : Nat) : Decidable (Renders components user used) :=
  decidable_of_iff (used ∈ usedBy components user) mem_usedBy

/-- Placing components one after the other, a run reaches a state: those placed so far, in order,
the number of users counted for each component, and the components left. -/
inductive Reaches : (placed counts unplaced : List Nat) → Prop where
  | start : Reaches [] (userCounts (uses components)) (List.range components.length)
  | step {placed counts unplaced : List Nat} {i : Nat} (prior : Reaches placed counts unplaced)
      (hNext : next? counts unplaced = some i) :
      Reaches (placed ++ [i]) (release (usedBy components i) counts) (unplaced.erase i)

/-- The number of some components that render a component. -/
def users (some : List Nat) (used : Nat) : Nat :=
  some.countP fun user => Renders components user used

/-- A component of the file that is not among those placed. -/
def IsLeft (placed : List Nat) (i : Nat) : Prop := i < components.length ∧ i ∉ placed

/-- No component left renders a component. -/
def IsFree (placed : List Nat) (i : Nat) : Prop :=
  ∀ user, IsLeft components placed user → ¬ Renders components user i

/-- The component to place behind others: the first of those left that are free, or the first of all
that are left if none is free. -/
inductive IsNext (placed : List Nat) (i : Nat) : Prop where
  | free (hLeft : IsLeft components placed i) (hFree : IsFree components placed i)
      (hFirst : ∀ j, IsLeft components placed j → IsFree components placed j → i ≤ j)
  | first (hLeft : IsLeft components placed i)
      (hNone : ∀ j, IsLeft components placed j → ¬ IsFree components placed j)
      (hFirst : ∀ j, IsLeft components placed j → i ≤ j)

/-- The counts of a run are right: each is the number of components left that render a component. -/
structure CountsUsers (placed counts unplaced : List Nat) : Prop where
  unplaced_eq : unplaced = (List.range components.length).filter fun i => i ∉ placed
  counts : ∀ j < components.length, counts[j]? = some (users components unplaced j)

end

variable {components : List (Component Ast)}

/-- Components that render others are components of the file. -/
theorem Renders.user_lt {user used : Nat} (h : Renders components user used) :
    user < components.length := by
  obtain ⟨-, a, -, -, hUser, -⟩ := h
  exact (List.getElem?_eq_some_iff.mp hUser).1

theorem Renders.used_lt {user used : Nat} (h : Renders components user used) :
    used < components.length := by
  obtain ⟨-, -, b, -, -, hUsed, -⟩ := h
  exact (List.getElem?_eq_some_iff.mp hUsed).1

/-- A component is free once all that render it are placed. -/
theorem isFree_iff {placed : List Nat} {i : Nat} :
    IsFree components placed i ↔ ∀ user, Renders components user i → user ∈ placed := by
  constructor
  · intro hFree user hRenders
    by_contra hLeft
    exact hFree user ⟨hRenders.user_lt, hLeft⟩ hRenders
  · intro hPlaced user hLeft hRenders
    exact hLeft.2 (hPlaced user hRenders)

/-! What the steps do to the counts. -/

theorem length_uses : (uses components).length = components.length := by
  rw [uses, List.length_map, List.length_zipIdx]

theorem uses_eq_map : uses components = (List.range components.length).map (usedBy components) := by
  apply List.ext_getElem?
  intro i
  rw [List.getElem?_map]
  by_cases hBound : i < components.length
  · have hUses : i < (uses components).length := by rwa [length_uses]
    rw [List.getElem?_range hBound, List.getElem?_eq_getElem hUses, Option.map_some, usedBy,
      List.getElem?_eq_getElem hUses, Option.getD_some]
  · have hLength : (List.range components.length).length ≤ i := by
      rw [List.length_range]
      omega
    rw [List.getElem?_eq_none (by rw [length_uses]; omega), List.getElem?_eq_none hLength,
      Option.map_none]

/-- At the start, every component counts as many users as there are. -/
theorem getElem?_userCounts {j : Nat} (hBound : j < components.length) :
    (userCounts (uses components))[j]? =
      some (users components (List.range components.length) j) := by
  rw [userCounts, List.getElem?_map, length_uses, List.getElem?_range hBound, Option.map_some,
    uses_eq_map, List.countP_map, users]
  congr 2
  funext user
  simp [mem_usedBy]

/-- Placing a component takes one off the counts of those that it renders. -/
theorem getElem?_release (used counts : List Nat) (j : Nat) :
    (release used counts)[j]? =
      (counts[j]?).map fun count => if j ∈ used then count - 1 else count := by
  rw [release, List.getElem?_map, List.getElem?_zipIdx]
  cases counts[j]? <;> simp

/-- Placing a component takes it off the users of those that it renders. -/
theorem users_erase {unplaced : List Nat} {i : Nat} (hMem : i ∈ unplaced) (j : Nat) :
    users components (unplaced.erase i) j =
      if j ∈ usedBy components i then users components unplaced j - 1
      else users components unplaced j := by
  rw [users, List.countP_erase, users]
  simp only [hMem, true_and, decide_eq_true_iff, mem_usedBy]
  split
  · rfl
  · rfl

/-- No users are left just if none of some components renders the component. -/
theorem users_eq_zero_iff {some : List Nat} {j : Nat} :
    users components some j = 0 ↔ ∀ user ∈ some, ¬ Renders components user j := by
  simp only [users, List.countP_eq_zero, decide_eq_true_iff]

/-- The counts are right at the start. -/
theorem countsUsers_start :
    CountsUsers components [] (userCounts (uses components))
      (List.range components.length) :=
  ⟨by simp, fun _ hBound => getElem?_userCounts hBound⟩

/-- One step keeps the counts right. -/
theorem CountsUsers.step {placed counts unplaced : List Nat} {i : Nat}
    (h : CountsUsers components placed counts unplaced) (hMem : i ∈ unplaced) :
    CountsUsers components (placed ++ [i])
      (release (usedBy components i) counts) (unplaced.erase i) := by
  constructor
  · have hDistinct : unplaced.Nodup := h.unplaced_eq ▸ List.nodup_range.filter _
    rw [hDistinct.erase_eq_filter, h.unplaced_eq, List.filter_filter]
    apply List.filter_congr
    intro j _
    by_cases hEq : j = i <;> simp [hEq]
  · intro j hBound
    rw [getElem?_release, h.counts j hBound, Option.map_some, users_erase hMem]

/-- A run keeps the counts right. -/
theorem Reaches.countsUsers {placed counts unplaced : List Nat}
    (h : Reaches components placed counts unplaced) :
    CountsUsers components placed counts unplaced := by
  induction h with
  | start => exact countsUsers_start
  | step _ hNext ih => exact ih.step (mem_of_next?_eq_some hNext)

/-! What the counts say about the component that is placed next. -/

/-- The components left are those of the file that are not placed. -/
theorem CountsUsers.mem_unplaced_iff {placed counts unplaced : List Nat}
    (h : CountsUsers components placed counts unplaced) {i : Nat} :
    i ∈ unplaced ↔ IsLeft components placed i := by
  simp only [h.unplaced_eq, List.mem_filter, List.mem_range, decide_eq_true_iff, IsLeft]

/-- The components left stand in the order of the file. -/
theorem CountsUsers.pairwise_lt {placed counts unplaced : List Nat}
    (h : CountsUsers components placed counts unplaced) :
    unplaced.Pairwise (· < ·) :=
  h.unplaced_eq ▸ List.pairwise_lt_range.filter _

/-- No user of a component is counted exactly when the component is free. -/
theorem CountsUsers.count_eq_zero_iff {placed counts unplaced : List Nat}
    (h : CountsUsers components placed counts unplaced) {i : Nat}
    (hBound : i < components.length) : counts[i]? = some 0 ↔ IsFree components placed i := by
  rw [h.counts i hBound, Option.some.injEq, users_eq_zero_iff]
  exact forall_congr' fun user => imp_congr_left h.mem_unplaced_iff

/-- A step never takes a user off a component that has none left to count. -/
theorem CountsUsers.count_pos {placed counts unplaced : List Nat}
    (h : CountsUsers components placed counts unplaced) {i j : Nat}
    (hMem : i ∈ unplaced) (hUsed : j ∈ usedBy components i) :
    ∃ count, counts[j]? = some (count + 1) := by
  have hRenders := mem_usedBy.mp hUsed
  have hCount := h.counts j hRenders.used_lt
  cases hUsers : users components unplaced j with
  | zero => exact absurd hRenders (users_eq_zero_iff.mp hUsers i hMem)
  | succ count => exact ⟨count, hUsers ▸ hCount⟩

/-- A member of a sorted list is the first in front of those behind it. -/
theorem le_of_mem_cons {i j : Nat} {after : List Nat} (hSorted : (i :: after).Pairwise (· < ·))
    (hMem : j ∈ i :: after) : i ≤ j := by
  rcases List.mem_cons.mp hMem with rfl | hAfter
  · exact Nat.le_refl _
  · exact Nat.le_of_lt (List.rel_of_pairwise_cons hSorted hAfter)

/-- With right counts, a run places the component that comes next. -/
theorem CountsUsers.isNext {placed counts unplaced : List Nat} {i : Nat}
    (h : CountsUsers components placed counts unplaced)
    (hNext : next? counts unplaced = some i) : IsNext components placed i := by
  have hLeft := h.mem_unplaced_iff.mp (mem_of_next?_eq_some hNext)
  rw [next?, Option.orElse_eq_orElse, Option.orElse_eq_or, Option.or_eq_some_iff] at hNext
  rcases hNext with hFound | ⟨hNone, hHead⟩
  · obtain ⟨hZero, before, after, hSplit, hBefore⟩ := List.find?_eq_some_iff_append.mp hFound
    rw [decide_eq_true_iff, h.count_eq_zero_iff hLeft.1] at hZero
    refine .free hLeft hZero fun j hOther hFree => ?_
    have hMem := h.mem_unplaced_iff.mpr hOther
    rw [hSplit, List.mem_append] at hMem
    rcases hMem with hIn | hIn
    · have hCount := (h.count_eq_zero_iff hOther.1).mpr hFree
      simpa [hCount] using hBefore j hIn
    · exact le_of_mem_cons (List.pairwise_append.mp (hSplit ▸ h.pairwise_lt)).2.1 hIn
  · obtain ⟨after, rfl⟩ := List.head?_eq_some_iff.mp hHead
    refine .first hLeft (fun j hOther hFree => ?_) fun j hOther => ?_
    · have hCount := (h.count_eq_zero_iff hOther.1).mpr hFree
      simpa [hCount] using List.find?_eq_none.mp hNone j (h.mem_unplaced_iff.mpr hOther)
    · exact le_of_mem_cons h.pairwise_lt (h.mem_unplaced_iff.mpr hOther)

/-! The order is what a run has placed at its end. -/

/-- A run goes on until no component is left. -/
theorem Reaches.place {steps : Nat} {placed counts unplaced : List Nat}
    (h : Reaches components placed counts unplaced) (hEnough : unplaced.length ≤ steps) :
    ∃ last, Reaches components (placed ++ place (uses components) steps counts unplaced) last
      [] := by
  induction steps generalizing placed counts unplaced with
  | zero =>
      obtain rfl := List.eq_nil_of_length_eq_zero (Nat.le_zero.mp hEnough)
      exact ⟨counts, by rwa [Usage.place, List.append_nil]⟩
  | succ steps ih =>
      rw [Usage.place]
      cases hNext : next? counts unplaced with
      | none =>
          obtain rfl := next?_eq_none_iff.mp hNext
          exact ⟨counts, by rwa [List.append_nil]⟩
      | some i =>
          have hLength := List.length_erase_of_mem (mem_of_next?_eq_some hNext)
          have hRest : (unplaced.erase i).length ≤ steps := by omega
          rw [List.append_cons]
          exact ih (h.step hNext) hRest

/-- A run ends with all components placed. -/
theorem order_reaches (components : List (Component Ast)) :
    ∃ last, Reaches components (order components) last [] :=
  Reaches.start.place (Nat.le_of_eq List.length_range)

/-- Whatever a run has placed was the next one when it was placed. -/
theorem Reaches.isNext {placed counts unplaced : List Nat}
    (h : Reaches components placed counts unplaced) {before after : List Nat} {i : Nat}
    (hSplit : placed = before ++ i :: after) : IsNext components before i := by
  induction h generalizing after with
  | start => simp at hSplit
  | step prior hNext ih =>
      rcases List.eq_nil_or_concat after with rfl | ⟨after, last, rfl⟩
      · obtain ⟨rfl, hLast⟩ := List.append_inj' hSplit rfl
        rw [List.singleton_inj] at hLast
        exact hLast ▸ prior.countsUsers.isNext hNext
      · rw [List.concat_eq_append, ← List.cons_append, ← List.append_assoc] at hSplit
        exact ih (List.append_inj' hSplit rfl).1

/-- In the order, each component comes next behind those before it. -/
theorem isNext_of_order_eq {before after : List Nat} {i : Nat}
    (hSplit : order components = before ++ i :: after) : IsNext components before i := by
  obtain ⟨last, hReaches⟩ := order_reaches components
  exact hReaches.isNext hSplit

end ComponentAnalysis.Usage
