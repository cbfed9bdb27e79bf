import ComponentAnalysis.Proofs.Tree.Numbering
import Mathlib.Logic.Relation

/-! Parents and children of numbered nodes. Each number is the child of its parent and of no other
number, and the numbers below a node are those of its block. -/
namespace ComponentAnalysis

namespace Tree

/-- The numbers of several trees are those of the first nodes of their blocks. -/
theorem mem_numbers {ts : List Tree} {first number : Nat} :
    number ∈ numbers first ts ↔ ∃ i t, ts[i]? = some t ∧ number = first + sizeAll (ts.take i) := by
  rw [List.mem_iff_getElem]
  constructor
  · rintro ⟨i, hi, rfl⟩
    have hi' : i < ts.length := by rwa [length_numbers] at hi
    exact ⟨i, ts[i], List.getElem?_eq_getElem hi', getElem_numbers ts first i hi⟩
  · rintro ⟨i, t, ht, rfl⟩
    have hi : i < (numbers first ts).length := by
      rw [length_numbers]
      exact (List.getElem?_eq_some_iff.mp ht).1
    exact ⟨i, hi, getElem_numbers ts first i hi⟩

theorem le_of_mem_numbers {ts : List Tree} {first number : Nat} (h : number ∈ numbers first ts) :
    first ≤ number := by
  obtain ⟨i, t, -, rfl⟩ := mem_numbers.mp h
  exact Nat.le_add_right _ _

/-- Trees later in a list have larger numbers. -/
theorem pairwise_numbers (ts : List Tree) (first : Nat) : (numbers first ts).Pairwise (· < ·) := by
  induction ts generalizing first with
  | nil => exact List.Pairwise.nil
  | cons t ts ih =>
      refine List.pairwise_cons.mpr ⟨fun number hNumber => ?_, ih _⟩
      have hLe := le_of_mem_numbers hNumber
      have hSize := t.size_pos
      omega

/-- The block of a tree lies in the blocks of the list it is in. -/
theorem sizeAll_take_add_le {ts : List Tree} {i : Nat} {t : Tree} (h : ts[i]? = some t) :
    sizeAll (ts.take i) + t.size ≤ sizeAll ts := by
  obtain ⟨hi, rfl⟩ := List.getElem?_eq_some_iff.mp h
  have hSplit : sizeAll ts = sizeAll (ts.take i) + sizeAll (ts.drop i) := by
    rw [← sizeAll_append, List.take_append_drop]
  rw [hSplit, List.drop_eq_getElem_cons hi, sizeAll]
  omega

end Tree

namespace TreeIndex

open ComponentAnalysis.Tree

/-- A number stands on the chain of parents of another one, or is that number itself. -/
def IsOver (index : TreeIndex) (number other : Nat) : Prop :=
  Relation.ReflTransGen (fun child parent => index.parent? child = some parent) other number

variable {index : TreeIndex} {first number : Nat} {parent : Option Nat}

/-- A listed tree has its parent. -/
theorem Lists.parent?_eq {t : Tree} (h : index.Lists first parent [t]) :
    index.parent? first = parent := by
  obtain ⟨kind, span, children⟩ := t
  rw [parent?, h.getElem?, Option.bind_some]

theorem Lists.span?_eq {t : Tree} (h : index.Lists first parent [t]) :
    index.span? first = some t.span := by
  obtain ⟨kind, span, children⟩ := t
  rw [span?, h.getElem?, Option.map_some]
  rfl

/-- A number of the trees of a list is the first of a block of one of them. -/
theorem Lists.of_mem_numbers {ts : List Tree} (h : index.Lists first parent ts)
    (hNumber : number ∈ numbers first ts) :
    ∃ t ∈ ts, index.Lists number parent [t] ∧ first ≤ number ∧
      number + t.size ≤ first + sizeAll ts := by
  obtain ⟨i, t, ht, rfl⟩ := mem_numbers.mp hNumber
  have hBlock := sizeAll_take_add_le ht
  exact ⟨t, List.mem_of_getElem? ht, h.get ht, by omega, by omega⟩

/-! Every number of the walk is listed, and a child of its parent. -/

/-- If each of several trees lists its nodes, so do all of them together. -/
theorem exists_lists_of {n : Tree} (ts : List Tree)
    (ih : ∀ t ∈ ts, ∀ {first parent}, index.Lists first parent [t] →
      (∀ a ∈ parent, first ∈ index.children a) → ∀ {i}, t.preorder[i]? = some n →
      ∃ around, index.Lists (first + i) around [n] ∧ ∀ a ∈ around, first + i ∈ index.children a)
    (h : index.Lists first parent ts)
    (hParent : ∀ a ∈ parent, ∀ number ∈ numbers first ts, number ∈ index.children a)
    {i : Nat} (hPlace : (ts.flatMap preorder)[i]? = some n) :
    ∃ around, index.Lists (first + i) around [n] ∧ ∀ a ∈ around, first + i ∈ index.children a := by
  obtain ⟨s, t, ht, hLow, hInside⟩ := exists_block ts i n hPlace
  have hNumber : first + sizeAll (ts.take s) ∈ numbers first ts := mem_numbers.mpr ⟨s, t, ht, rfl⟩
  obtain ⟨around, hLists, hChild⟩ := ih t (List.mem_of_getElem? ht) (h.get ht)
    (fun a ha => hParent a ha _ hNumber) hInside
  rw [Nat.add_assoc, Nat.add_sub_cancel' hLow] at hLists hChild
  exact ⟨around, hLists, hChild⟩

/-- Every node of a listed tree is listed itself, at the place where the walk meets it. -/
theorem exists_lists_of_tree {n : Tree} (t : Tree) (h : index.Lists first parent [t])
    (hParent : ∀ a ∈ parent, first ∈ index.children a) {i : Nat}
    (hPlace : t.preorder[i]? = some n) :
    ∃ around, index.Lists (first + i) around [n] ∧ ∀ a ∈ around, first + i ∈ index.children a := by
  induction t generalizing first parent i with
  | node kind span children ih =>
      rw [preorder_eq] at hPlace
      cases i with
      | zero =>
          obtain rfl : node kind span children = n := by simpa using hPlace
          exact ⟨parent, h, hParent⟩
      | succ i =>
          rw [List.getElem?_cons_succ] at hPlace
          have hBelow := exists_lists_of children (fun c hc => ih c hc) h.below
            (by simp [h.children_eq]) hPlace
          rwa [Nat.add_assoc, Nat.add_comm 1] at hBelow

section

variable {ts : List Tree} {child other : Nat} {n : Tree}

/-- An index has one entry for each node of its trees. -/
theorem size_ofTrees (ts : List Tree) : (ofTrees ts).size = (ts.flatMap preorder).length := by
  rw [size, ofTrees, length_entriesAll, sizeAll_eq_length ts fun t _ => size_eq_length t]

/-- The node that the walk meets at a place is listed with the number of the place. -/
theorem exists_lists (h : (ts.flatMap preorder)[number]? = some n) :
    ∃ around, (ofTrees ts).Lists number around [n] ∧
      ∀ a ∈ around, number ∈ (ofTrees ts).children a := by
  have hLists := exists_lists_of ts (fun t _ => exists_lists_of_tree t) (ofTrees_lists ts)
    (by simp) h
  rwa [Nat.zero_add] at hLists

/-- Each number of an index is that of a node. -/
theorem exists_node (h : number < (ofTrees ts).size) :
    ∃ n, (ts.flatMap preorder)[number]? = some n := by
  rw [size_ofTrees] at h
  exact ⟨_, List.getElem?_eq_getElem h⟩

/-- Only numbers of the index have children. -/
theorem lt_size_of_mem_children (h : child ∈ index.children number) : number < index.size := by
  rw [TreeIndex.children] at h
  split at h
  · rename_i hEntry
    exact (List.getElem?_eq_some_iff.mp hEntry).1
  · cases h

theorem children_eq_nil (h : index.size ≤ number) : index.children number = [] := by
  rw [TreeIndex.children, List.getElem?_eq_none_iff.mpr h]

/-- Only numbers of the index have a parent. -/
theorem lt_size_of_parent? {a : Nat} (h : index.parent? child = some a) : child < index.size := by
  obtain ⟨entry, hEntry, -⟩ := Option.bind_eq_some_iff.mp h
  exact (List.getElem?_eq_some_iff.mp hEntry).1

/-- A child of a listed node is listed with the node as its parent, in the block of the node. -/
theorem Lists.of_mem_children (h : index.Lists number parent [n])
    (hChild : child ∈ index.children number) :
    ∃ c ∈ n.children, index.Lists child (some number) [c] ∧ number < child ∧
      child + c.size ≤ number + n.size := by
  obtain ⟨kind, span, children⟩ := n
  rw [h.children_eq] at hChild
  obtain ⟨c, hc, hLists, hLow, hHigh⟩ := h.below.of_mem_numbers hChild
  exact ⟨c, hc, hLists, hLow, by rw [Tree.size]; omega⟩

/-- Each number is a child of its parent and of no other number. -/
theorem parent?_eq_some_iff {a : Nat} :
    (ofTrees ts).parent? child = some a ↔ child ∈ (ofTrees ts).children a := by
  constructor
  · intro h
    obtain ⟨n, hn⟩ := exists_node (lt_size_of_parent? h)
    obtain ⟨around, hLists, hChild⟩ := exists_lists hn
    rw [hLists.parent?_eq] at h
    exact hChild a h
  · intro h
    obtain ⟨n, hn⟩ := exists_node (lt_size_of_mem_children h)
    obtain ⟨around, hLists, -⟩ := exists_lists hn
    obtain ⟨c, -, hChild, -, -⟩ := hLists.of_mem_children h
    exact hChild.parent?_eq

/-- Parents have smaller numbers than their children. -/
theorem lt_of_parent?_eq_some {a : Nat} (h : (ofTrees ts).parent? child = some a) :
    a < child := by
  rw [parent?_eq_some_iff] at h
  obtain ⟨n, hn⟩ := exists_node (lt_size_of_mem_children h)
  obtain ⟨around, hLists, -⟩ := exists_lists hn
  obtain ⟨c, -, -, hLt, -⟩ := hLists.of_mem_children h
  exact hLt

/-! The chain of parents and the block. -/

/-- A node stands over all numbers of its block. -/
theorem Lists.isOver (h : index.Lists number parent [n]) (hLow : number ≤ other)
    (hHigh : other < number + n.size) : index.IsOver number other := by
  induction n generalizing number parent with
  | node kind span children ih =>
      rcases Nat.eq_or_lt_of_le hLow with rfl | hBelow
      · exact Relation.ReflTransGen.refl
      · rw [Tree.size] at hHigh
        have hInside : other - (number + 1) < (children.flatMap preorder).length := by
          rw [← sizeAll_eq_length children fun c _ => size_eq_length c]
          omega
        obtain ⟨s, c, hc, hLowChild, hPlace⟩ :=
          exists_block children _ _ (List.getElem?_eq_getElem hInside)
        have hHighChild := lt_size_of_getElem?_preorder hPlace
        have hLists := h.below.get hc
        have hOver := ih c (List.mem_of_getElem? hc) hLists (by omega) (by omega)
        exact hOver.tail hLists.parent?_eq

/-- It stands over no others. -/
theorem Lists.block_of_isOver {around : Option Nat}
    (h : (ofTrees ts).Lists number around [n]) (hOver : (ofTrees ts).IsOver number other) :
    number ≤ other ∧ other < number + n.size := by
  induction hOver generalizing around n with
  | refl => exact ⟨Nat.le_refl _, Nat.lt_add_of_pos_right n.size_pos⟩
  | @tail c a hOver hParent ih =>
      obtain ⟨m, -, hLists, hLt, hBlock⟩ := h.of_mem_children (parent?_eq_some_iff.mp hParent)
      obtain ⟨hLow, hHigh⟩ := ih hLists
      omega

/-- A number stands over exactly the numbers of its block. -/
theorem isOver_iff_of_node (h : (ts.flatMap preorder)[number]? = some n) :
    (ofTrees ts).IsOver number other ↔ number ≤ other ∧ other < number + n.size := by
  obtain ⟨around, hLists, -⟩ := exists_lists h
  exact ⟨hLists.block_of_isOver, fun ⟨hLow, hHigh⟩ => hLists.isOver hLow hHigh⟩

/-- The search below a node finds the numbers of its block. -/
theorem contains_iff_of_node (h : (ts.flatMap preorder)[number]? = some n) :
    (ofTrees ts).contains number other = true ↔ number ≤ other ∧ other < number + n.size := by
  obtain ⟨around, hLists, -⟩ := exists_lists h
  exact contains_iff n hLists other

end

end TreeIndex

end ComponentAnalysis
