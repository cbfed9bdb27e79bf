import ComponentAnalysis.Proofs.Tree.Preorder
import Mathlib.Data.List.Basic

/-! Where the nodes of a script stand in its text. A parser puts the nodes below a node into its
span and, apart from a few kinds, one behind the other. A span that is not empty then lies in at
most one of several nodes that stand one behind the other. -/
namespace ComponentAnalysis

namespace Kind

/-- Whether nodes of a kind may cover no text at all. -/
def mayBeEmpty : Kind → Bool
  | templateText _ | elision => true
  | _ => false

/-- Whether nodes of a kind list their children in the order of the text, none over another. The
texts of a template come before all of its expressions, and a shorthand has one name in two
places. -/
def ordersChildren : Kind → Bool
  | template | otherType | property | bindingProperty | importNamed _ => false
  | _ => true

end Kind

theorem Span.Within.refl (span : Span) : span.Within span := ⟨Nat.le_refl _, Nat.le_refl _⟩

/-- A span inside another one is inside all that hold the other. -/
theorem Span.Within.trans {a b c : Span} (h : a.Within b) (h' : b.Within c) : a.Within c :=
  ⟨Nat.le_trans h'.1 h.1, Nat.le_trans h.2 h'.2⟩

namespace Tree

/-- One node ends before the other starts. -/
def Before (a b : Tree) : Prop := a.span.stop ≤ b.span.start

instance (a b : Tree) : Decidable (a.Before b) := inferInstanceAs (Decidable (_ ≤ _))

/-- A node covers a text, in which its children stand. -/
structure Placed (t : Tree) : Prop where
  ordered : t.span.start ≤ t.span.stop
  covers : t.kind.mayBeEmpty = false → t.span.start < t.span.stop
  within : ∀ c ∈ t.children, c.span.Within t.span
  apart : t.kind.ordersChildren = true → t.children.Pairwise Before

instance (t : Tree) : Decidable t.Placed :=
  decidable_of_iff
    (t.span.start ≤ t.span.stop ∧ (t.kind.mayBeEmpty = false → t.span.start < t.span.stop) ∧
      (∀ c ∈ t.children, c.span.Within t.span) ∧
      (t.kind.ordersChildren = true → t.children.Pairwise Before))
    ⟨fun ⟨ordered, covers, within, apart⟩ => ⟨ordered, covers, within, apart⟩,
      fun ⟨ordered, covers, within, apart⟩ => ⟨ordered, covers, within, apart⟩⟩

/-- Every node of a tree is placed. -/
def WellPlaced (t : Tree) : Prop := ∀ n ∈ t.preorder, n.Placed

instance (t : Tree) : Decidable t.WellPlaced := inferInstanceAs (Decidable (∀ n ∈ _, _))

/-- In a placed tree all nodes are placed. -/
theorem WellPlaced.of_mem {n t : Tree} (h : t.WellPlaced) (hn : n ∈ t.preorder) : n.WellPlaced :=
  fun _ hm => h _ (mem_preorder_trans hm hn)

theorem WellPlaced.of_child {c t : Tree} (h : t.WellPlaced) (hc : c ∈ t.children) : c.WellPlaced :=
  h.of_mem (mem_preorder_of_mem_children hc)

/-- So is the root. -/
theorem WellPlaced.placed {t : Tree} (h : t.WellPlaced) : t.Placed := h t t.mem_preorder_self

/-- All nodes of a tree lie within its span. -/
theorem WellPlaced.within {n t : Tree} (h : t.WellPlaced) (hn : n ∈ t.preorder) :
    n.span.Within t.span := by
  induction t with
  | node kind span children ih =>
      rcases mem_preorder.mp hn with rfl | ⟨c, hc, hn⟩
      · exact Span.Within.refl _
      · exact (ih c hc (h.of_child hc) hn).trans (h.placed.within c hc)

/-- All nodes cover some text, but for those of a few kinds. -/
theorem WellPlaced.covers {n t : Tree} (h : t.WellPlaced) (hn : n ∈ t.preorder)
    (hKind : n.kind.mayBeEmpty = false) : n.span.start < n.span.stop :=
  (h.of_mem hn).placed.covers hKind

/-- A span that is not empty lies in at most one of several nodes one behind the other. -/
theorem index_eq_of_within {ts : List Tree} (h : ts.Pairwise Before) {i j : Nat} {a b : Tree}
    (ha : ts[i]? = some a) (hb : ts[j]? = some b) {span : Span} (hSpan : span.start < span.stop)
    (hWithinA : span.Within a.span) (hWithinB : span.Within b.span) : i = j := by
  have hNot : ∀ {i j : Nat} {a b : Tree}, ts[i]? = some a → ts[j]? = some b → span.Within a.span →
      span.Within b.span → ¬ i < j := by
    intro i j a b ha hb hA hB hij
    obtain ⟨hi, rfl⟩ := List.getElem?_eq_some_iff.mp ha
    obtain ⟨hj, rfl⟩ := List.getElem?_eq_some_iff.mp hb
    have hBefore : (ts[i]).span.stop ≤ (ts[j]).span.start :=
      List.pairwise_iff_getElem.mp h i j hi hj hij
    have hStop := hA.2
    have hStart := hB.1
    omega
  have hLeft := hNot ha hb hWithinA hWithinB
  have hRight := hNot hb ha hWithinB hWithinA
  omega

/-- A span with some text lies in one of several nodes at most, if these stand one behind the other.
-/
theorem eq_of_within {ts : List Tree} (h : ts.Pairwise Before) {a b : Tree} (ha : a ∈ ts)
    (hb : b ∈ ts) {span : Span} (hSpan : span.start < span.stop) (hWithinA : span.Within a.span)
    (hWithinB : span.Within b.span) : a = b := by
  obtain ⟨i, hi⟩ := List.mem_iff_getElem?.mp ha
  obtain ⟨j, hj⟩ := List.mem_iff_getElem?.mp hb
  have hEq := index_eq_of_within h hi hj hSpan hWithinA hWithinB
  rw [hEq, hj] at hi
  exact (Option.some.inj hi).symm

end Tree

/-- The top-level statements of a script as its parser places them
(`Script.scriptPlaced_of_parse?`). -/
structure ScriptPlaced (program : List Tree) : Prop where
  each : ∀ t ∈ program, t.WellPlaced
  apart : program.Pairwise Tree.Before

instance (program : List Tree) : Decidable (ScriptPlaced program) :=
  decidable_of_iff ((∀ t ∈ program, t.WellPlaced) ∧ program.Pairwise Tree.Before)
    ⟨fun ⟨each, apart⟩ => ⟨each, apart⟩, fun ⟨each, apart⟩ => ⟨each, apart⟩⟩

end ComponentAnalysis
