import ComponentAnalysis.Proofs.Tree.Preorder
import Mathlib.Data.List.Basic

/-! The numbering of a list of trees follows their walk: the entry of a number has the span of the
node met at that place, and the nodes of a tree have the numbers of one block. Looking upwards from
a number therefore ends at the root whose block it lies in. -/
namespace ComponentAnalysis

namespace Tree

theorem length_entriesAll_of (ts : List Tree)
    (h : ∀ t ∈ ts, ∀ first parent, (entries first parent t).length = t.size)
    (first : Nat) (parent : Option Nat) :
    (entriesAll first parent ts).length = sizeAll ts := by
  induction ts generalizing first with
  | nil => rfl
  | cons t ts ih =>
      rw [entriesAll, List.length_append, h t List.mem_cons_self, sizeAll,
        ih fun u hu => h u (List.mem_cons_of_mem t hu)]

/-- A tree has an entry for each of its nodes. -/
theorem length_entries (t : Tree) (first : Nat) (parent : Option Nat) :
    (entries first parent t).length = t.size := by
  induction t generalizing first parent with
  | node kind span children ih =>
      rw [entries, List.length_cons, length_entriesAll_of children ih, size, Nat.add_comm]

/-- So do several trees. -/
theorem length_entriesAll (ts : List Tree) (first : Nat) (parent : Option Nat) :
    (entriesAll first parent ts).length = sizeAll ts :=
  length_entriesAll_of ts (fun t _ => length_entries t) first parent

theorem map_span_entriesAll_of (ts : List Tree)
    (h : ∀ t ∈ ts, ∀ first parent,
      (entries first parent t).map IndexEntry.span = t.preorder.map Tree.span)
    (first : Nat) (parent : Option Nat) :
    (entriesAll first parent ts).map IndexEntry.span = (ts.flatMap preorder).map Tree.span := by
  induction ts generalizing first with
  | nil => rfl
  | cons t ts ih =>
      rw [entriesAll, List.map_append, h t List.mem_cons_self, List.flatMap_cons, List.map_append,
        ih fun u hu => h u (List.mem_cons_of_mem t hu)]

/-- The entries have the spans of the nodes, in the order of a walk. -/
theorem map_span_entries (t : Tree) (first : Nat) (parent : Option Nat) :
    (entries first parent t).map IndexEntry.span = t.preorder.map Tree.span := by
  induction t generalizing first parent with
  | node kind span children ih =>
      rw [entries, List.map_cons, map_span_entriesAll_of children ih, preorder_eq, List.map_cons]
      rfl

/-- The same over several trees. -/
theorem map_span_entriesAll (ts : List Tree) (first : Nat) (parent : Option Nat) :
    (entriesAll first parent ts).map IndexEntry.span = (ts.flatMap preorder).map Tree.span :=
  map_span_entriesAll_of ts (fun t _ => map_span_entries t) first parent

/-- Each tree of a list has a number of its own. -/
theorem length_numbers (ts : List Tree) (first : Nat) : (numbers first ts).length = ts.length := by
  induction ts generalizing first with
  | nil => rfl
  | cons t ts ih => simp [numbers, ih]

/-- A tree has one node at least, so its number is less than that of the next. -/
theorem size_pos (t : Tree) : 0 < t.size := by
  rw [size_eq_length]
  exact List.length_pos_of_mem t.mem_preorder_self

/-- A tree has the number behind all nodes of the trees before it. -/
theorem getElem_numbers (ts : List Tree) (first i : Nat) (h : i < (numbers first ts).length) :
    (numbers first ts)[i] = first + sizeAll (ts.take i) := by
  induction ts generalizing first i with
  | nil => simp [numbers] at h
  | cons t ts ih =>
      cases i with
      | zero => simp [numbers, sizeAll]
      | succ i => simp [numbers, sizeAll, ih, Nat.add_assoc]

/-- The tree whose block of numbers a place of the walk lies in holds the node met there. -/
theorem exists_block (ts : List Tree) (i : Nat) (n : Tree)
    (h : (ts.flatMap preorder)[i]? = some n) :
    ∃ s t, ts[s]? = some t ∧ sizeAll (ts.take s) ≤ i ∧
      t.preorder[i - sizeAll (ts.take s)]? = some n := by
  induction ts generalizing i with
  | nil => simp at h
  | cons t ts ih =>
      rw [List.flatMap_cons] at h
      rcases Nat.lt_or_ge i t.preorder.length with hi | hi
      · rw [List.getElem?_append_left hi] at h
        exact ⟨0, t, rfl, Nat.zero_le _, h⟩
      · rw [List.getElem?_append_right hi, ← size_eq_length] at h
        rw [← size_eq_length] at hi
        obtain ⟨s, u, hu, hLow, hPlace⟩ := ih _ h
        refine ⟨s + 1, u, by simpa using hu, ?_, ?_⟩
        · rw [List.take_succ_cons, sizeAll]
          omega
        · rwa [List.take_succ_cons, sizeAll, ← Nat.sub_sub]

/-- The places of a walk are less than the size of the tree. -/
theorem lt_size_of_getElem?_preorder {t n : Tree} {i : Nat} (h : t.preorder[i]? = some n) :
    i < t.size := by
  rw [size_eq_length]
  exact (List.getElem?_eq_some_iff.mp h).1

/-- Blocks of different trees of a list do not overlap. -/
theorem block_unique {ts : List Tree} {s s' i : Nat} {t t' : Tree}
    (ht : ts[s]? = some t) (ht' : ts[s']? = some t')
    (hLow : sizeAll (ts.take s) ≤ i) (hHigh : i < sizeAll (ts.take s) + t.size)
    (hLow' : sizeAll (ts.take s') ≤ i) (hHigh' : i < sizeAll (ts.take s') + t'.size) :
    s = s' := by
  have hNext : ∀ {a b : Nat} {u : Tree}, ts[a]? = some u → a < b →
      sizeAll (ts.take a) + u.size ≤ sizeAll (ts.take b) := by
    intro a b u hu hab
    have hTake : ts.take (a + 1) = ts.take a ++ [u] := by
      rw [List.take_add_one, hu, Option.toList_some]
    have hSplit : ts.take b = ts.take (a + 1) ++ (ts.take b).drop (a + 1) := by
      have hPrefix := List.take_append_drop (a + 1) (ts.take b)
      rwa [List.take_take, Nat.min_eq_left hab, eq_comm] at hPrefix
    rw [hSplit, hTake, sizeAll_append, sizeAll_append]
    simp only [sizeAll]
    omega
  rcases Nat.lt_trichotomy s s' with h | h | h
  · have := hNext ht h
    omega
  · exact h
  · have := hNext ht' h
    omega

end Tree

namespace TreeIndex

open ComponentAnalysis.Tree

/-- An index lists the entries of some trees from a number on. -/
def Lists (index : TreeIndex) (first : Nat) (parent : Option Nat) (ts : List Tree) : Prop :=
  ∃ before after, index.entries = before ++ entriesAll first parent ts ++ after ∧
    before.length = first

variable {index : TreeIndex} {first : Nat} {parent : Option Nat}

/-- The index of some trees lists all of them from `0` on. -/
theorem ofTrees_lists (ts : List Tree) : (ofTrees ts).Lists 0 none ts :=
  ⟨[], [], by simp [ofTrees], rfl⟩

/-- An index that lists several trees lists the first one. -/
theorem Lists.head {t : Tree} {ts : List Tree} (h : index.Lists first parent (t :: ts)) :
    index.Lists first parent [t] := by
  obtain ⟨before, after, hEntries, hLength⟩ := h
  refine ⟨before, entriesAll (first + t.size) parent ts ++ after, ?_, hLength⟩
  simp [hEntries, entriesAll]

/-- The others are listed behind its block. -/
theorem Lists.tail {t : Tree} {ts : List Tree} (h : index.Lists first parent (t :: ts)) :
    index.Lists (first + t.size) parent ts := by
  obtain ⟨before, after, hEntries, hLength⟩ := h
  refine ⟨before ++ Tree.entries first parent t, after, ?_, ?_⟩
  · simp [hEntries, entriesAll]
  · rw [List.length_append, hLength, length_entries]

/-- What an index lists lies in it. -/
theorem Lists.size_le {ts : List Tree} (h : index.Lists first parent ts) :
    first + sizeAll ts ≤ index.size := by
  obtain ⟨before, after, hEntries, hLength⟩ := h
  rw [TreeIndex.size, hEntries, List.length_append, List.length_append, length_entriesAll, hLength]
  omega

section

variable {kind : Kind} {span : Span} {children : List Tree}

/-- The first entry of a listed tree is that of its root. -/
theorem Lists.getElem? (h : index.Lists first parent [.node kind span children]) :
    index.entries[first]? = some ⟨span, parent, numbers (first + 1) children⟩ := by
  obtain ⟨before, after, hEntries, rfl⟩ := h
  simp [hEntries, entriesAll, Tree.entries]

theorem Lists.children_eq (h : index.Lists first parent [.node kind span children]) :
    index.children first = numbers (first + 1) children := by
  simp [TreeIndex.children, h.getElem?]

/-- The children of a node are listed behind the node, which is their parent. -/
theorem Lists.below (h : index.Lists first parent [.node kind span children]) :
    index.Lists (first + 1) (some first) children := by
  obtain ⟨before, after, hEntries, hLength⟩ := h
  refine ⟨before ++ [⟨span, parent, numbers (first + 1) children⟩], after, ?_, ?_⟩
  · simp [hEntries, entriesAll, Tree.entries]
  · simp [hLength]

end

/-- If each of several listed trees contains exactly the numbers of its block, then together they
contain exactly the numbers of all blocks. The numbers passed to `contains` are checked to grow. -/
theorem any_contains_numbers (ts : List Tree)
    (ih : ∀ t ∈ ts, ∀ first parent, index.Lists first parent [t] → ∀ other,
      index.contains first other = true ↔ first ≤ other ∧ other < first + t.size)
    (node : Nat) (hNode : node < first) (h : index.Lists first parent ts) (other : Nat) :
    ((numbers first ts).any fun child =>
        if node < child ∧ child < index.size then index.contains child other else false) = true ↔
      first ≤ other ∧ other < first + sizeAll ts := by
  induction ts generalizing first with
  | nil =>
      simp only [numbers, List.any_nil, sizeAll, Bool.false_eq_true, false_iff]
      omega
  | cons t ts ihTail =>
      have hSize : first + sizeAll (t :: ts) ≤ index.size := h.size_le
      -- The search follows a child only if its number is larger than that of the node and listed.
      have hPositive := t.size_pos
      have hHead := ih t List.mem_cons_self first parent h.head other
      have hTail := ihTail (fun u hu => ih u (List.mem_cons_of_mem t hu))
        (Nat.lt_add_right t.size hNode) h.tail
      rw [sizeAll] at hSize
      have hGuard : node < first ∧ first < index.size := ⟨hNode, by omega⟩
      rw [numbers, List.any_cons, if_pos hGuard, Bool.or_eq_true, hHead, hTail, sizeAll]
      omega

/-- A listed node contains exactly the numbers of its block. -/
theorem contains_iff (t : Tree) (h : index.Lists first parent [t]) (other : Nat) :
    index.contains first other = true ↔ first ≤ other ∧ other < first + t.size := by
  induction t generalizing first parent other with
  | node kind span children ih =>
      have hBelow := any_contains_numbers children
        (fun c hc first parent hLists other => ih c hc hLists other) first (Nat.lt_succ_self first)
        h.below other
      rw [contains, h.children_eq, Bool.or_eq_true, beq_iff_eq, hBelow, Tree.size]
      omega

/-- Each of several listed trees is listed behind the blocks of those before it. -/
theorem Lists.get {ts : List Tree} (h : index.Lists first parent ts) {s : Nat} {t : Tree}
    (ht : ts[s]? = some t) : index.Lists (first + sizeAll (ts.take s)) parent [t] := by
  induction ts generalizing first s with
  | nil => simp at ht
  | cons u ts ih =>
      cases s with
      | zero =>
          obtain rfl : u = t := by simpa using ht
          simpa [sizeAll] using h.head
      | succ s =>
          have hTail := ih h.tail (by simpa using ht)
          simpa [sizeAll, Nat.add_assoc] using hTail

/-- The root above a number is the tree whose block holds it. -/
theorem rootOf?_eq {ts : List Tree} {s node : Nat} {t : Tree} (ht : ts[s]? = some t)
    (hLow : sizeAll (ts.take s) ≤ node) (hHigh : node < sizeAll (ts.take s) + t.size) :
    (ofTrees ts).rootOf? node = some s := by
  have hContains : ∀ {i : Nat} {u : Tree}, ts[i]? = some u →
      ((ofTrees ts).contains (sizeAll (ts.take i)) node = true ↔
        sizeAll (ts.take i) ≤ node ∧ node < sizeAll (ts.take i) + u.size) := by
    intro i u hu
    have hLists := (ofTrees_lists ts).get hu
    rw [Nat.zero_add] at hLists
    exact contains_iff u hLists node
  obtain ⟨hs, -⟩ := List.getElem?_eq_some_iff.mp ht
  refine List.findIdx?_eq_some_iff_getElem.mpr ⟨by simpa [ofTrees, length_numbers] using hs, ?_, ?_⟩
  · simp only [ofTrees, getElem_numbers, Nat.zero_add]
    exact (hContains ht).mpr ⟨hLow, hHigh⟩
  · -- An earlier root that contains the number would share a block with this one.
    intro i hi hFound
    have hu : ts[i]? = some ts[i] := List.getElem?_eq_getElem (Nat.lt_trans hi hs)
    simp only [ofTrees, getElem_numbers, Nat.zero_add] at hFound
    obtain ⟨hLow', hHigh'⟩ := (hContains hu).mp hFound
    have hEq := block_unique hu ht hLow' hHigh' hLow hHigh
    omega

/-- The span of a number is that of the node at this place of the walk. -/
theorem span?_ofTrees (ts : List Tree) (node : Nat) :
    (ofTrees ts).span? node = ((ts.flatMap preorder)[node]?).map Tree.span := by
  rw [span?, ofTrees, ← List.getElem?_map, ← List.getElem?_map, map_span_entriesAll]

/-- No number is found for a span that no node has. -/
theorem find?_eq_none (ts : List Tree) (span : Span)
    (h : ∀ n ∈ ts.flatMap preorder, n.span ≠ span) : (ofTrees ts).find? span = none := by
  rw [TreeIndex.find?, List.find?_eq_none]
  intro node _ hNode
  rw [decide_eq_true_iff, span?_ofTrees, Option.map_eq_some_iff] at hNode
  obtain ⟨n, hn, hSpan⟩ := hNode
  exact h n (List.mem_of_getElem? hn) hSpan

/-- If nodes with a span stand in one tree only, then looking up the span and going to the root
gives the place of that tree, whichever of the nodes is found. -/
theorem rootOf?_find? {ts : List Tree} {span : Span} {s : Nat} {t : Tree} (ht : ts[s]? = some t)
    (hSpan : ∃ n ∈ t.preorder, n.span = span)
    (hOnly : ∀ s' t', ts[s']? = some t' → (∃ n ∈ t'.preorder, n.span = span) → s' = s) :
    ((ofTrees ts).find? span).bind (ofTrees ts).rootOf? = some s := by
  cases hFind : (ofTrees ts).find? span with
  | none =>
      obtain ⟨n, hn, hEq⟩ := hSpan
      have hMem : n ∈ ts.flatMap preorder :=
        List.mem_flatMap.mpr ⟨t, List.mem_of_getElem? ht, hn⟩
      obtain ⟨node, hNode⟩ := List.mem_iff_getElem?.mp hMem
      have hSome : (ofTrees ts).span? node = some span := by
        rw [span?_ofTrees, hNode, Option.map_some, hEq]
      have hLt : node < (ofTrees ts).size := by
        obtain ⟨entry, hEntry, -⟩ := Option.map_eq_some_iff.mp hSome
        exact (List.getElem?_eq_some_iff.mp hEntry).1
      rw [TreeIndex.find?, List.find?_eq_none] at hFind
      exact False.elim (hFind node (by simpa using hLt) (by simpa using hSome))
  | some node =>
      have hNode := List.find?_some hFind
      rw [decide_eq_true_iff, span?_ofTrees, Option.map_eq_some_iff] at hNode
      obtain ⟨n, hn, hEq⟩ := hNode
      obtain ⟨s', t', ht', hLow, hPlace⟩ := exists_block ts node n hn
      have hHigh := lt_size_of_getElem?_preorder hPlace
      obtain rfl := hOnly s' t' ht' ⟨n, List.mem_of_getElem? hPlace, hEq⟩
      rw [Option.bind_some]
      exact rootOf?_eq ht' hLow (by omega)

end TreeIndex

end ComponentAnalysis
