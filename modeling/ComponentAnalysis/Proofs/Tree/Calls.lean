import ComponentAnalysis.Proofs.Tree.WalkOrder
import Mathlib.Data.List.Pairwise

/-! Calls of a script are told apart by their spans. A call ends with its parenthesis, behind all of
its parts, so no call below it ends where it does. -/
namespace ComponentAnalysis

namespace Kind

/-- Whether nodes of a kind are calls. -/
def isCall : Kind → Bool
  | call => true
  | _ => false

theorem ne_call {kind : Kind} (h : kind.isCall = false) : kind ≠ .call := by
  rintro rfl
  cases h

end Kind

namespace Tree

/-- Each call has a callee, and ends behind all nodes directly below it. -/
def ClosesCalls (t : Tree) : Prop :=
  ∀ n ∈ t.preorder, n.kind = .call →
    n.children ≠ [] ∧ ∀ c ∈ n.children, c.span.stop < n.span.stop

instance (t : Tree) : Decidable t.ClosesCalls := inferInstanceAs (Decidable (∀ n ∈ _, _))

/-- A tree as parsers give it: laid out, with calls that end behind their parts. -/
structure Parsed (t : Tree) : Prop extends LaidOut t where
  closesCalls : t.ClosesCalls

/-- The children of a parsed tree are parsed. -/
theorem Parsed.of_child {c t : Tree} (h : t.Parsed) (hc : c ∈ t.children) : c.Parsed :=
  ⟨h.toLaidOut.of_child hc, fun n hn => h.closesCalls n (mem_preorder_of_child hc hn)⟩

/-- So are all nodes below it. -/
theorem Parsed.of_mem {n t : Tree} (h : t.Parsed) (hn : n ∈ t.preorder) : n.Parsed :=
  ⟨⟨h.wellPlaced.of_mem hn, fun m hm => h.walkOrdered m (mem_preorder_trans hm hn)⟩,
    fun m hm => h.closesCalls m (mem_preorder_trans hm hn)⟩

/-- The calls in a tree, each before the calls inside it. -/
def calls (t : Tree) : List Tree := t.preorder.filter fun n => n.kind = .call

theorem mem_calls {n t : Tree} : n ∈ t.calls ↔ n ∈ t.preorder ∧ n.kind = .call := by
  rw [calls, List.mem_filter, decide_eq_true_iff]

/-- The calls of a tree are the root, if it is one, and those below each child. -/
theorem calls_eq (t : Tree) :
    t.calls = (if t.kind = .call then [t] else []) ++ t.children.flatMap calls := by
  rw [calls, preorder_eq, List.filter_cons, List.filter_flatMap]
  by_cases hCall : t.kind = .call
  · rw [if_pos hCall, if_pos (decide_eq_true hCall)]
    rfl
  · rw [if_neg hCall, if_neg (by simpa using hCall)]
    rfl

/-- Calls below a node are calls of the whole tree. -/
theorem mem_calls_of_mem {c n t : Tree} (hc : c ∈ n.calls) (hn : n ∈ t.preorder) : c ∈ t.calls :=
  mem_calls.mpr ⟨mem_preorder_trans (mem_calls.mp hc).1 hn, (mem_calls.mp hc).2⟩

/-! Calls that are told apart by their spans. -/

/-- No two calls in a tree have one span. -/
def CallsApart (t : Tree) : Prop := t.calls.Pairwise fun m n => m.span ≠ n.span

instance (t : Tree) : Decidable t.CallsApart := inferInstanceAs (Decidable (List.Pairwise _ _))

/-- Calls are told apart if the root is told from those below it, and these from each other. -/
theorem callsApart_iff {t : Tree} :
    t.CallsApart ↔ (t.kind = .call → ∀ n ∈ t.children.flatMap calls, t.span ≠ n.span) ∧
      (t.children.flatMap calls).Pairwise fun m n => m.span ≠ n.span := by
  rw [CallsApart, calls_eq]
  by_cases hCall : t.kind = .call
  · rw [if_pos hCall, List.singleton_append, List.pairwise_cons]
    exact and_congr_left fun _ => ⟨fun h _ => h, fun h => h hCall⟩
  · rw [if_neg hCall, List.nil_append]
    exact (and_iff_right fun h => absurd h hCall).symm

namespace CallsApart

variable {a b c m n t : Tree} (h : t.CallsApart)

include h

theorem pairwise_children :
    (∀ c ∈ t.children, c.CallsApart) ∧
      t.children.Pairwise fun a b => ∀ m ∈ a.calls, ∀ n ∈ b.calls, m.span ≠ n.span :=
  List.pairwise_flatMap.mp (callsApart_iff.mp h).2

theorem of_child (hc : c ∈ t.children) : c.CallsApart := h.pairwise_children.1 c hc

/-- Below a node of the tree, calls are told apart as well. -/
theorem of_mem (hn : n ∈ t.preorder) : n.CallsApart := by
  induction t with
  | node kind span children ih =>
      rcases mem_preorder.mp hn with rfl | ⟨c, hc, hn⟩
      · exact h
      · exact ih c hc (h.of_child hc) hn

/-- No call is met twice. -/
theorem nodup : t.calls.Nodup :=
  List.Pairwise.imp (fun hSpan hEq => hSpan (congrArg Tree.span hEq)) h

/-- Calls of one span are one call. -/
theorem eq_of_span_eq (hm : m ∈ t.calls) (hn : n ∈ t.calls) (hSpan : m.span = n.span) : m = n := by
  by_contra hNe
  have hSymm : Std.Symm fun m n : Tree => m.span ≠ n.span := ⟨fun _ _ => Ne.symm⟩
  exact List.Pairwise.forall h hm hn hNe hSpan

/-- Calls of one span stand in one of the nodes directly below a node. -/
theorem child_eq (ha : a ∈ t.children) (hb : b ∈ t.children) (hm : m ∈ a.calls) (hn : n ∈ b.calls)
    (hSpan : m.span = n.span) : a = b := by
  by_contra hNe
  have hSymm : Std.Symm fun a b : Tree => ∀ m ∈ a.calls, ∀ n ∈ b.calls, m.span ≠ n.span :=
    ⟨fun _ _ hApart n hn m hm => (hApart m hm n hn).symm⟩
  exact h.pairwise_children.2.forall ha hb hNe m hm n hn hSpan

/-- No call below a call has its span. -/
theorem span_ne (hCall : t.kind = .call) (hc : c ∈ t.children) (hn : n ∈ c.calls) :
    t.span ≠ n.span :=
  (callsApart_iff.mp h).1 hCall n (List.mem_flatMap.mpr ⟨c, hc, hn⟩)

/-- A node around a call stands in the child that the call stands in. -/
theorem mem_child_of_mem (ha : a ∈ t.children) (hc : c ∈ a.calls) (hn : n ∈ t.preorder)
    (hNe : n ≠ t) (hcn : c ∈ n.calls) : n ∈ a.preorder := by
  obtain ⟨b, hb, hn⟩ := (mem_preorder.mp hn).resolve_left hNe
  rwa [h.child_eq ha hb hc (mem_calls_of_mem hcn hn) rfl]

/-- Of two nodes around a call one stands in the other. -/
theorem mem_or_mem (hm : m ∈ t.preorder) (hn : n ∈ t.preorder) (hcm : c ∈ m.calls)
    (hcn : c ∈ n.calls) : m ∈ n.preorder ∨ n ∈ m.preorder := by
  induction t with
  | node kind span children ih =>
      rcases mem_preorder.mp hm with rfl | ⟨a, ha, hma⟩
      · exact Or.inr hn
      · rcases mem_preorder.mp hn with rfl | ⟨b, hb, hnb⟩
        · exact Or.inl hm
        · obtain rfl := h.child_eq ha hb (mem_calls_of_mem hcm hma) (mem_calls_of_mem hcn hnb) rfl
          exact ih a ha (h.of_child ha) hma hnb

end CallsApart

/-! Parsed trees. -/

/-- A call has a callee, so none stands at a place without nodes below it. -/
theorem Parsed.calls_eq_nil_of_leaf {t : Tree} (h : t.Parsed) (hLeaf : t.children = []) :
    t.calls = [] := by
  have hKind : t.kind ≠ .call := fun hCall => (h.closesCalls t t.mem_preorder_self hCall).1 hLeaf
  rw [calls_eq, if_neg hKind, hLeaf]
  rfl

/-- Everything below a call ends before the call does. -/
theorem Parsed.stop_lt_of_mem {c n t : Tree} (h : t.Parsed) (hCall : t.kind = .call)
    (hc : c ∈ t.children) (hn : n ∈ c.preorder) : n.span.stop < t.span.stop :=
  Nat.lt_of_le_of_lt ((h.of_child hc).wellPlaced.within hn).2
    ((h.closesCalls t t.mem_preorder_self hCall).2 c hc)

/-- The calls of a parsed tree are told apart by their spans. -/
theorem Parsed.callsApart {t : Tree} (h : t.Parsed) : t.CallsApart := by
  induction t with
  | node kind span children ih =>
      have hEach : ∀ c ∈ children, c.Parsed := fun c hc => h.of_child hc
      refine callsApart_iff.mpr ⟨fun hCall n hn hSpan => ?_,
        List.pairwise_flatMap.mpr ⟨fun c hc => ih c hc (hEach c hc), ?_⟩⟩
      · obtain ⟨c, hc, hn⟩ := List.mem_flatMap.mp hn
        have hStop := h.stop_lt_of_mem hCall hc (mem_calls.mp hn).1
        rw [hSpan] at hStop
        exact Nat.lt_irrefl _ hStop
      · apply (h.walkOrdered _ (mem_preorder_self _)).imp_of_mem
        rintro a b ha hb (hBefore | hLeaf) m hm n hn hSpan
        · obtain ⟨hm, -⟩ := mem_calls.mp hm
          obtain ⟨hn, hCall⟩ := mem_calls.mp hn
          have hCovers : n.span.start < n.span.stop :=
            (hEach b hb).wellPlaced.covers hn (by rw [hCall]; rfl)
          have hStop : m.span.stop ≤ a.span.stop := ((hEach a ha).wellPlaced.within hm).2
          have hStart : b.span.start ≤ n.span.start := ((hEach b hb).wellPlaced.within hn).1
          have hApart : a.span.stop ≤ b.span.start := hBefore
          rw [hSpan] at hStop
          omega
        · rw [(hEach a ha).calls_eq_nil_of_leaf hLeaf] at hm
          cases hm

end Tree

/-- The top-level statements of a script as its parser gives them
(`Script.scriptParsed_of_parse?`). -/
structure ScriptParsed (program : List Tree) : Prop extends ScriptOrdered program where
  calls : ∀ t ∈ program, t.ClosesCalls

instance (program : List Tree) : Decidable (ScriptParsed program) :=
  decidable_of_iff (ScriptOrdered program ∧ ∀ t ∈ program, t.ClosesCalls)
    ⟨fun ⟨ordered, calls⟩ => ⟨ordered, calls⟩, fun ⟨ordered, calls⟩ => ⟨ordered, calls⟩⟩

end ComponentAnalysis
