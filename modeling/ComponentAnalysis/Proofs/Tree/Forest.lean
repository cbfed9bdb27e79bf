import ComponentAnalysis.Proofs.Tree.Ancestors
import ComponentAnalysis.Proofs.Tree.Builder

/-! The numbering of several trees is a forest in preorder. The search for a number below another
one, with a stack of numbers to follow, ends on it and finds exactly the numbers of the block, which
are those with the other number on their chain of parents. -/
namespace ComponentAnalysis.TreeIndex

open ComponentAnalysis.Tree

/-! The search with a stack. -/

/-- The search for a number goes through a stack, whose top stands first, to an answer. A number
that is not the one searched for is replaced by its children, the last of them on top. -/
inductive Searches (index : TreeIndex) (other : Nat) : List Nat → Bool → Prop where
  | exhausted : Searches index other [] false
  | found (rest : List Nat) : Searches index other (other :: rest) true
  | follow {number : Nat} {rest : List Nat} {answer : Bool} (hNumber : number ≠ other)
      (next : Searches index other ((index.children number).reverse ++ rest) answer) :
      Searches index other (number :: rest) answer

variable {index : TreeIndex} {first number other : Nat} {parent : Option Nat} {rest : List Nat}
  {answer : Bool}

/-- A search has one answer. -/
theorem Searches.unique {stack : List Nat} {answer' : Bool}
    (h : index.Searches other stack answer) (h' : index.Searches other stack answer') :
    answer = answer' := by
  induction h with
  | exhausted =>
      cases h'
      rfl
  | found rest =>
      cases h' with
      | found => rfl
      | follow hNumber => exact absurd rfl hNumber
  | follow hNumber next ih =>
      cases h' with
      | found => exact absurd rfl hNumber
      | follow _ next' => exact ih next'

/-- The numbers on top of a stack lead the search through exactly the numbers from one on up to
another: it finds a number among these, and otherwise goes on with the rest of the stack. -/
structure Covers (index : TreeIndex) (top : List Nat) (low high : Nat) : Prop where
  found : ∀ {other}, low ≤ other → other < high → ∀ rest, index.Searches other (top ++ rest) true
  passed : ∀ {other}, ¬ (low ≤ other ∧ other < high) → ∀ {rest answer},
    index.Searches other rest answer → index.Searches other (top ++ rest) answer

/-- The numbers of several trees cover their blocks, if that of each tree covers its own. The last
tree is on top, so the search meets it first. -/
theorem covers_numbers_of (ts : List Tree)
    (ih : ∀ t ∈ ts, ∀ {first parent}, index.Lists first parent [t] →
      index.Covers [first] first (first + t.size))
    (h : index.Lists first parent ts) :
    index.Covers (numbers first ts).reverse first (first + sizeAll ts) := by
  induction ts generalizing first with
  | nil => exact ⟨fun hLow hHigh => by rw [sizeAll] at hHigh; omega, fun _ _ _ hRest => hRest⟩
  | cons t ts ihTail =>
      have hHead := ih t List.mem_cons_self h.head
      have hTail := ihTail (fun u hu => ih u (List.mem_cons_of_mem t hu)) h.tail
      have hTop : ∀ rest, (numbers first (t :: ts)).reverse ++ rest =
          (numbers (first + t.size) ts).reverse ++ ([first] ++ rest) := by
        intro rest
        rw [numbers, List.reverse_cons, List.append_assoc]
      -- The later trees are searched before the first one.
      constructor
      · intro other hLow hHigh rest
        rw [sizeAll] at hHigh
        rw [hTop]
        by_cases hBlock : other < first + t.size
        · exact hTail.passed (by omega) (hHead.found hLow hBlock rest)
        · exact hTail.found (by omega) (by omega) _
      · intro other hOutside rest answer hRest
        rw [sizeAll] at hOutside
        rw [hTop]
        have hSize := t.size_pos
        exact hTail.passed (by omega) (hHead.passed (by omega) hRest)

/-- The number of a listed tree leads the search through its block. -/
theorem Lists.covers (t : Tree) (h : index.Lists first parent [t]) :
    index.Covers [first] first (first + t.size) := by
  induction t generalizing first parent with
  | node kind span children ih =>
      have hBelow := covers_numbers_of children (fun c hc => ih c hc) h.below
      rw [← h.children_eq] at hBelow
      constructor
      · intro other hLow hHigh rest
        rw [Tree.size] at hHigh
        rcases Nat.eq_or_lt_of_le hLow with rfl | hLt
        · exact Searches.found rest
        · exact Searches.follow (Nat.ne_of_lt hLt) (hBelow.found hLt (by omega) rest)
      · intro other hOutside rest answer hRest
        rw [Tree.size] at hOutside
        exact Searches.follow (by omega) (hBelow.passed (by omega) hRest)

/-- The search below any number ends, with the answer that following the children gives. -/
theorem searches_contains (ts : List Tree) (number other : Nat) :
    (ofTrees ts).Searches other [number] ((ofTrees ts).contains number other) := by
  by_cases hSize : number < (ofTrees ts).size
  · obtain ⟨n, hn⟩ := exists_node hSize
    obtain ⟨around, hLists, -⟩ := exists_lists hn
    have hCovers := hLists.covers
    cases hContains : (ofTrees ts).contains number other with
    | true =>
        obtain ⟨hLow, hHigh⟩ := (contains_iff_of_node hn).mp hContains
        exact hCovers.found hLow hHigh []
    | false =>
        refine hCovers.passed (fun hBlock => ?_) Searches.exhausted
        rw [(contains_iff_of_node hn).mpr hBlock] at hContains
        cases hContains
  · -- Nothing stands below a number that is not listed.
    have hChildren := children_eq_nil (Nat.le_of_not_lt hSize)
    rw [contains, hChildren, List.any_nil, Bool.or_false]
    by_cases hSame : number = other
    · subst hSame
      rw [beq_self_eq_true]
      exact Searches.found []
    · rw [beq_false_of_ne hSame]
      refine Searches.follow hSame ?_
      rw [hChildren]
      exact Searches.exhausted

/-! Roots, children and spans. -/

/-- The numbers of some trees have their spans. -/
theorem Lists.map_span?_numbers {ts : List Tree} (h : index.Lists first parent ts) :
    (numbers first ts).map index.span? = ts.map fun t => some t.span := by
  induction ts generalizing first with
  | nil => rfl
  | cons t ts ih => rw [numbers, List.map_cons, List.map_cons, h.head.span?_eq, ih h.tail]

/-- The children of a number have the spans of the node's children. -/
theorem Lists.map_span?_children {n : Tree} (h : index.Lists number parent [n]) :
    (index.children number).map index.span? = n.children.map fun c => some c.span := by
  obtain ⟨kind, span, children⟩ := n
  rw [h.children_eq, h.below.map_span?_numbers]
  rfl

/-- Children are in the order of their numbers. -/
theorem pairwise_children (ts : List Tree) (number : Nat) :
    ((ofTrees ts).children number).Pairwise (· < ·) := by
  by_cases hSize : number < (ofTrees ts).size
  · obtain ⟨⟨kind, span, children⟩, hn⟩ := exists_node hSize
    obtain ⟨around, hLists, -⟩ := exists_lists hn
    rw [hLists.children_eq]
    exact pairwise_numbers children _
  · rw [children_eq_nil (Nat.le_of_not_lt hSize)]
    exact List.Pairwise.nil

variable {ts : List Tree} {span : Span}

/-- The roots are the numbers of the trees, in order. -/
theorem getElem?_roots {s : Nat} {t : Tree} (h : ts[s]? = some t) :
    (ofTrees ts).roots[s]? = some (sizeAll (ts.take s)) := by
  have hs : s < (ofTrees ts).roots.length := by
    rw [ofTrees, length_numbers]
    exact (List.getElem?_eq_some_iff.mp h).1
  rw [List.getElem?_eq_getElem hs]
  exact congrArg some ((getElem_numbers ts 0 s hs).trans (Nat.zero_add _))

theorem lists_root {s : Nat} {t : Tree} (h : ts[s]? = some t) :
    (ofTrees ts).Lists (sizeAll (ts.take s)) none [t] := by
  have hLists := (ofTrees_lists ts).get h
  rwa [Nat.zero_add] at hLists

/-- The root that is found for a number stands over it. -/
theorem exists_rootOf? (h : number < (ofTrees ts).size) :
    ∃ s root, (ofTrees ts).rootOf? number = some s ∧ (ofTrees ts).roots[s]? = some root ∧
      (ofTrees ts).IsOver root number := by
  obtain ⟨n, hn⟩ := exists_node h
  obtain ⟨s, t, ht, hLow, hPlace⟩ := exists_block ts number n hn
  have hInside := lt_size_of_getElem?_preorder hPlace
  have hHigh : number < sizeAll (ts.take s) + t.size := by omega
  exact ⟨s, _, rootOf?_eq ht hLow hHigh, getElem?_roots ht, (lists_root ht).isOver hLow hHigh⟩

/-- Only one root stands over a number. -/
theorem rootOf?_eq_some_iff {s : Nat} (h : number < (ofTrees ts).size) :
    (ofTrees ts).rootOf? number = some s ↔
      ∃ root, (ofTrees ts).roots[s]? = some root ∧ (ofTrees ts).IsOver root number := by
  constructor
  · intro hRoot
    obtain ⟨found, root, hFound, hGet, hOver⟩ := exists_rootOf? h
    obtain rfl := Option.some.inj (hRoot.symm.trans hFound)
    exact ⟨root, hGet, hOver⟩
  · rintro ⟨root, hGet, hOver⟩
    have hs : s < ts.length := by
      rw [← length_numbers ts 0]
      exact (List.getElem?_eq_some_iff.mp hGet).1
    have ht : ts[s]? = some ts[s] := List.getElem?_eq_getElem hs
    obtain rfl := Option.some.inj (hGet.symm.trans (getElem?_roots ht))
    obtain ⟨hLow, hHigh⟩ := (lists_root ht).block_of_isOver hOver
    exact rootOf?_eq ht hLow hHigh

/-- A number beyond the index has no root. -/
theorem rootOf?_eq_none (h : (ofTrees ts).size ≤ number) : (ofTrees ts).rootOf? number = none := by
  refine List.findIdx?_eq_none_iff.mpr fun root hRoot => ?_
  obtain ⟨t, -, hLists, -, -⟩ := (ofTrees_lists ts).of_mem_numbers hRoot
  have hSize := hLists.size_le
  rw [sizeAll, sizeAll, Nat.add_zero] at hSize
  rw [← Bool.not_eq_true, contains_iff t hLists]
  omega

/-- The roots are the numbers without a parent. -/
theorem mem_roots_iff :
    number ∈ (ofTrees ts).roots ↔
      number < (ofTrees ts).size ∧ (ofTrees ts).parent? number = none := by
  constructor
  · intro h
    obtain ⟨t, -, hLists, -, -⟩ := (ofTrees_lists ts).of_mem_numbers h
    have hSize := hLists.size_le
    have hPositive := t.size_pos
    rw [sizeAll] at hSize
    exact ⟨by omega, hLists.parent?_eq⟩
  · rintro ⟨hSize, hNone⟩
    obtain ⟨s, root, -, hGet, hOver⟩ := exists_rootOf? hSize
    -- A number without a parent has no number over it but itself.
    rcases hOver.cases_head with rfl | ⟨a, hParent, -⟩
    · exact List.mem_of_getElem? hGet
    · rw [hNone] at hParent
      cases hParent

/-- No larger number has the span that is looked up. -/
theorem find?_le {found : Nat} (h : index.find? span = some found)
    (hSpan : index.span? number = some span) : number ≤ found := by
  obtain ⟨-, later, earlier, hRange, hLater⟩ := List.find?_eq_some_iff_append.mp h
  have hSize : number < index.size := by
    obtain ⟨entry, hEntry, -⟩ := Option.map_eq_some_iff.mp hSpan
    exact (List.getElem?_eq_some_iff.mp hEntry).1
  have hMem : number ∈ (List.range index.size).reverse :=
    List.mem_reverse.mpr (List.mem_range.mpr hSize)
  have hSorted : (List.range index.size).reverse.Pairwise (· > ·) :=
    List.pairwise_reverse.mpr List.pairwise_lt_range
  rw [hRange] at hMem hSorted
  rcases List.mem_append.mp hMem with hIn | hIn
  · have hNot := hLater number hIn
    simp [hSpan] at hNot
  · rcases List.mem_cons.mp hIn with rfl | hIn
    · exact Nat.le_refl _
    · have hTail := (List.pairwise_append.mp hSorted).2.1
      exact Nat.le_of_lt ((List.pairwise_cons.mp hTail).1 number hIn)

/-- The number found is the largest one with the span. -/
theorem find?_eq_some_iff :
    index.find? span = some number ↔ index.span? number = some span ∧
      ∀ other, index.span? other = some span → other ≤ number := by
  constructor
  · intro h
    exact ⟨by simpa using List.find?_some h, fun other hOther => find?_le h hOther⟩
  · rintro ⟨hSpan, hLargest⟩
    cases hFind : index.find? span with
    | none =>
        have hSize : number < index.size := by
          obtain ⟨entry, hEntry, -⟩ := Option.map_eq_some_iff.mp hSpan
          exact (List.getElem?_eq_some_iff.mp hEntry).1
        rw [TreeIndex.find?, List.find?_eq_none] at hFind
        exact absurd (by simpa using hSpan) (hFind number (by simpa using hSize))
    | some found =>
        have hFound : index.span? found = some span := by simpa using List.find?_some hFind
        rw [Nat.le_antisymm (hLargest found hFound) (find?_le hFind hSpan)]

/-! The forest. -/

/-- The numbers of a numbering are the places of a walk over trees, and its parents and children are
those of the nodes at these places. -/
structure IsPreorderForest (index : TreeIndex) (ts : List Tree) : Prop where
  spans : ∀ number, index.span? number = ((ts.flatMap preorder)[number]?).map Tree.span
  /-- Each tree has one root, which has its span, in the order of the trees. -/
  roots_spans : index.roots.map index.span? = ts.map fun t => some t.span
  roots_ascend : index.roots.Pairwise (· < ·)
  mem_roots : ∀ number, number ∈ index.roots ↔
    number < index.size ∧ index.parent? number = none
  children_spans : ∀ number n, (ts.flatMap preorder)[number]? = some n →
    (index.children number).map index.span? = n.children.map fun c => some c.span
  children_ascend : ∀ number, (index.children number).Pairwise (· < ·)
  parent_iff : ∀ number child,
    index.parent? child = some number ↔ child ∈ index.children number
  parent_lt : ∀ number child, index.parent? child = some number → number < child

/-- Searches below a number end, and find the numbers of its block, which are those that it stands
over. -/
structure DescendsExactly (index : TreeIndex) (ts : List Tree) : Prop where
  searches : ∀ number other answer,
    index.Searches other [number] answer ↔ answer = index.contains number other
  isOver : ∀ number other, number < index.size →
    (index.contains number other = true ↔ index.IsOver number other)
  block : ∀ number other n, (ts.flatMap preorder)[number]? = some n →
    (index.contains number other = true ↔ number ≤ other ∧ other < number + n.size)
  /-- The root found for a listed number is the only one over it. -/
  exists_root : ∀ number < index.size, ∃ s, index.rootOf? number = some s
  root : ∀ number s, number < index.size → (index.rootOf? number = some s ↔
    ∃ root, index.roots[s]? = some root ∧ index.IsOver root number)
  no_root : ∀ number, index.size ≤ number → index.rootOf? number = none

/-- Looking up a span gives the largest number with the span, below which no other number has
it. -/
structure FindsInnermost (index : TreeIndex) : Prop where
  find : ∀ span number, index.find? span = some number ↔
    index.span? number = some span ∧ ∀ other, index.span? other = some span → other ≤ number
  innermost : ∀ span number other, index.find? span = some number →
    index.contains number other = true → index.span? other = some span → other = number

/-- The numbers that an index is made of: its roots, and the parents and children of its nodes. -/
inductive Holds (index : TreeIndex) (number : Nat) : Prop
  | root (h : number ∈ index.roots)
  | parent (child : Nat) (h : index.parent? child = some number)
  | child (parent : Nat) (h : number ∈ index.children parent)

/-- Each number in the index of some trees is that of one of their nodes. -/
theorem lt_size_of_holds (h : (ofTrees ts).Holds number) : number < (ofTrees ts).size := by
  cases h with
  | root hRoot => exact (mem_roots_iff.mp hRoot).1
  | parent child hParent => exact lt_size_of_mem_children (parent?_eq_some_iff.mp hParent)
  | child parent hChild => exact lt_size_of_parent? (parent?_eq_some_iff.mpr hChild)

/-- The numbers of up to `2 ^ 32` nodes keep their values as words of 32 bits. -/
theorem toNat_ofNat_of_holds (hSize : (ofTrees ts).size ≤ UInt32.size)
    (h : (ofTrees ts).Holds number) : (UInt32.ofNat number).toNat = number :=
  UInt32.toNat_ofNat_of_lt' (Nat.lt_of_lt_of_le (lt_size_of_holds h) hSize)

/-- The index of any trees is the forest of their nodes in preorder. -/
theorem isPreorderForest (ts : List Tree) : (ofTrees ts).IsPreorderForest ts where
  spans := span?_ofTrees ts
  roots_spans := (ofTrees_lists ts).map_span?_numbers
  roots_ascend := pairwise_numbers ts 0
  mem_roots _ := mem_roots_iff
  children_spans number n hn := by
    obtain ⟨around, hLists, -⟩ := exists_lists hn
    exact hLists.map_span?_children
  children_ascend := pairwise_children ts
  parent_iff _ _ := parent?_eq_some_iff
  parent_lt _ _ := lt_of_parent?_eq_some

/-- Searches in the index of any trees end and find the numbers of a block. -/
theorem descendsExactly (ts : List Tree) : (ofTrees ts).DescendsExactly ts where
  searches number other answer := by
    have hSearch := searches_contains ts number other
    refine ⟨fun h => h.unique hSearch, ?_⟩
    rintro rfl
    exact hSearch
  isOver number other hSize := by
    obtain ⟨n, hn⟩ := exists_node hSize
    rw [contains_iff_of_node hn, isOver_iff_of_node hn]
  block _ _ _ hn := contains_iff_of_node hn
  exists_root _ hSize := by
    obtain ⟨s, -, hRoot, -, -⟩ := exists_rootOf? hSize
    exact ⟨s, hRoot⟩
  root _ _ hSize := rootOf?_eq_some_iff hSize
  no_root _ := rootOf?_eq_none

/-- A lookup in the index of any trees finds the innermost node. -/
theorem findsInnermost (ts : List Tree) : (ofTrees ts).FindsInnermost where
  find _ _ := find?_eq_some_iff
  innermost span number other hFind hContains hSpan := by
    obtain ⟨hNumber, hLargest⟩ := find?_eq_some_iff.mp hFind
    rw [span?_ofTrees, Option.map_eq_some_iff] at hNumber
    obtain ⟨n, hn, -⟩ := hNumber
    obtain ⟨hLow, -⟩ := (contains_iff_of_node hn).mp hContains
    exact Nat.le_antisymm (hLargest other hSpan) hLow

/-- The walk over any statements numbers them as a forest in preorder. -/
theorem visitAll?_isForest (ts : List Tree) :
    IndexBuilder.visitAll? ts {} = some ⟨ofTrees ts, []⟩ ∧ (ofTrees ts).IsPreorderForest ts ∧
      (ofTrees ts).DescendsExactly ts ∧ (ofTrees ts).FindsInnermost :=
  ⟨IndexBuilder.visitAll?_eq_ofTrees ts, isPreorderForest ts, descendsExactly ts,
    findsInnermost ts⟩

end ComponentAnalysis.TreeIndex
