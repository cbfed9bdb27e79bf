import ComponentAnalysis.Tree.Index

/-! Which nodes a walk of a tree meets: the node itself, then the nodes below each child. The number
of nodes counted by `size` is the length of the walk. -/
namespace ComponentAnalysis.Tree

/-- To show a property of all trees, show it of a node whose children have it. -/
@[induction_eliminator, elab_as_elim]
theorem induction {motive : Tree → Prop}
    (node : ∀ kind span children, (∀ c ∈ children, motive c) → motive (.node kind span children))
    (t : Tree) : motive t := by
  match t with
  | .node kind span children => exact node kind span children fun c _ => induction node c

/-- A walk meets the node itself and what the walks over its children meet. -/
theorem mem_preorder {n t : Tree} :
    n ∈ t.preorder ↔ n = t ∨ ∃ c ∈ t.children, n ∈ c.preorder := by
  rw [preorder_eq, List.mem_cons, List.mem_flatMap]

theorem mem_preorder_of_child {n c t : Tree} (hChild : c ∈ t.children) (h : n ∈ c.preorder) :
    n ∈ t.preorder :=
  mem_preorder.mpr (Or.inr ⟨c, hChild, h⟩)

theorem mem_preorder_of_mem_children {c t : Tree} (h : c ∈ t.children) : c ∈ t.preorder :=
  mem_preorder_of_child h c.mem_preorder_self

/-- Below a node that stands below another one, all nodes stand below that one too. -/
theorem mem_preorder_trans {m n t : Tree} (hm : m ∈ n.preorder) (hn : n ∈ t.preorder) :
    m ∈ t.preorder := by
  induction t with
  | node kind span children ih =>
      rcases mem_preorder.mp hn with rfl | ⟨c, hc, hn⟩
      · exact hm
      · exact mem_preorder_of_child hc (ih c hc hn)

theorem sizeAll_eq_length (ts : List Tree) (h : ∀ t ∈ ts, t.size = t.preorder.length) :
    sizeAll ts = (ts.flatMap preorder).length := by
  induction ts with
  | nil => rfl
  | cons t ts ih =>
      rw [List.flatMap_cons, List.length_append, sizeAll, h t List.mem_cons_self,
        ih fun u hu => h u (List.mem_cons_of_mem t hu)]

/-- The size of a tree is the number of nodes that a walk meets. -/
theorem size_eq_length (t : Tree) : t.size = t.preorder.length := by
  induction t with
  | node kind span children ih =>
      rw [preorder_eq, List.length_cons, size, Nat.add_comm]
      exact congrArg (· + 1) (sizeAll_eq_length children ih)

/-- Sizes of several trees add up. -/
theorem sizeAll_append (ts us : List Tree) : sizeAll (ts ++ us) = sizeAll ts + sizeAll us := by
  induction ts with
  | nil => simp [sizeAll]
  | cons t ts ih => simp [sizeAll, ih, Nat.add_assoc]

end ComponentAnalysis.Tree
