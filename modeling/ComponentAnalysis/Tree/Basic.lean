import ComponentAnalysis.Source.Span
import ComponentAnalysis.Tree.Kind

/-! Syntax trees of scripts. -/
namespace ComponentAnalysis

/-- A syntax node: what it is, where it stands and the nodes directly below it. -/
inductive Tree where
  | node (kind : Kind) (span : Span) (children : List Tree)
  deriving Repr

namespace Tree

instance : Inhabited Tree := ⟨.node .emptyStatement {} []⟩

def kind : Tree → Kind
  | node k _ _ => k

def span : Tree → Span
  | node _ s _ => s

def children : Tree → List Tree
  | node _ _ cs => cs

mutual

/-- The node and all nodes below it, each before the nodes below it. -/
def preorder : Tree → List Tree
  | node k s cs => node k s cs :: preorderAll cs

/-- The nodes of several trees, tree by tree. -/
def preorderAll : List Tree → List Tree
  | [] => []
  | t :: ts => preorder t ++ preorderAll ts

end

def child? (t : Tree) (p : Kind → Bool) : Option Tree := t.children.find? fun c => p c.kind

theorem preorderAll_eq_flatMap (ts : List Tree) : preorderAll ts = ts.flatMap preorder := by
  induction ts with
  | nil => rfl
  | cons t ts ih => simp [preorderAll, ih]

/-- A walk meets the node first, and then the nodes below each child. -/
theorem preorder_eq (t : Tree) : t.preorder = t :: t.children.flatMap preorder := by
  cases t
  simp [preorder, children, preorderAll_eq_flatMap]

theorem mem_preorder_self (t : Tree) : t ∈ t.preorder := by
  rw [preorder_eq]
  exact List.mem_cons_self

end Tree

end ComponentAnalysis
