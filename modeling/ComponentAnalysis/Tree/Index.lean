import ComponentAnalysis.Tree.Basic

/-! A numbering of all nodes of a list of trees, with parents and children as numbers. -/
namespace ComponentAnalysis

/-- A numbered node: its span, the number of its parent and the numbers of its children. -/
structure IndexEntry where
  span : Span
  parent : Option Nat
  children : List Nat
  deriving DecidableEq, Repr

/-- Nodes numbered in preorder, and the numbers of the roots. A number is that of a place in
`entries`, so all of them fit in words of 32 bits if there are up to `2 ^ 32` entries. -/
structure TreeIndex where
  entries : List IndexEntry
  roots : List Nat
  deriving DecidableEq, Repr

namespace Tree

mutual

def size : Tree → Nat
  | node _ _ cs => 1 + sizeAll cs

def sizeAll : List Tree → Nat
  | [] => 0
  | t :: ts => size t + sizeAll ts

end

/-- The numbers of several trees that are numbered one after the other from `first`. -/
def numbers (first : Nat) : List Tree → List Nat
  | [] => []
  | t :: ts => first :: numbers (first + t.size) ts

mutual

/-- The entries of a tree numbered from `first`. -/
def entries (first : Nat) (parent : Option Nat) : Tree → List IndexEntry
  | node _ s cs => ⟨s, parent, numbers (first + 1) cs⟩ :: entriesAll (first + 1) (some first) cs

/-- The entries of several trees numbered one after the other from `first`. -/
def entriesAll (first : Nat) (parent : Option Nat) : List Tree → List IndexEntry
  | [] => []
  | t :: ts => entries first parent t ++ entriesAll (first + t.size) parent ts

end

end Tree

namespace TreeIndex

/-- The index of several trees, each of which is a root. -/
def ofTrees (trees : List Tree) : TreeIndex :=
  ⟨Tree.entriesAll 0 none trees, Tree.numbers 0 trees⟩

def size (index : TreeIndex) : Nat := index.entries.length

def span? (index : TreeIndex) (node : Nat) : Option Span :=
  (index.entries[node]?).map IndexEntry.span

def parent? (index : TreeIndex) (node : Nat) : Option Nat :=
  (index.entries[node]?).bind IndexEntry.parent

def children (index : TreeIndex) (node : Nat) : List Nat :=
  match index.entries[node]? with
  | some entry => entry.children
  | none => []

/-- The innermost node with exactly the given span: the last one in preorder. -/
def find? (index : TreeIndex) (span : Span) : Option Nat :=
  (List.range index.size).reverse.find? fun node => index.span? node = some span

/-- Whether a node is the other one or lies anywhere above it. Only children with larger numbers are
followed, as all are. -/
def contains (index : TreeIndex) (node other : Nat) : Bool :=
  node == other ||
    (index.children node).any fun child =>
      if node < child ∧ child < index.size then index.contains child other else false
termination_by index.size - node

/-- The position of the root that contains a node. -/
def rootOf? (index : TreeIndex) (node : Nat) : Option Nat :=
  index.roots.findIdx? fun root => index.contains root node

end TreeIndex

end ComponentAnalysis
