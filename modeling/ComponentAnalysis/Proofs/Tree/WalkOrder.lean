import ComponentAnalysis.Macro.Name
import ComponentAnalysis.Proofs.Tree.Placement

/-! The order of a walk over a script and the order of its text. A parser may put a child over
another one, but only where nothing stands below the first, so a walk meets macro calls by their
starts. -/
namespace ComponentAnalysis

namespace Tree

/-- A node ends before the other starts, or a walk finds nothing below it. -/
def Leads (a b : Tree) : Prop := a.Before b ∨ a.children = []

instance (a b : Tree) : Decidable (a.Leads b) := inferInstanceAs (Decidable (_ ∨ _))

/-- A walk over any node of a tree goes on to a child when it is through with the text of the child
before. -/
def WalkOrdered (t : Tree) : Prop := ∀ n ∈ t.preorder, n.children.Pairwise Leads

instance (t : Tree) : Decidable t.WalkOrdered := inferInstanceAs (Decidable (∀ n ∈ _, _))

/-- A tree as parsers lay it out: its nodes are placed, and walks over them are in order. -/
structure LaidOut (t : Tree) : Prop where
  wellPlaced : t.WellPlaced
  walkOrdered : t.WalkOrdered

theorem WalkOrdered.of_child {c t : Tree} (h : t.WalkOrdered) (hc : c ∈ t.children) :
    c.WalkOrdered :=
  fun n hn => h n (mem_preorder_of_child hc hn)

/-- The children of a tree in order are so as well. -/
theorem LaidOut.of_child {c t : Tree} (h : t.LaidOut) (hc : c ∈ t.children) : c.LaidOut :=
  ⟨h.wellPlaced.of_child hc, h.walkOrdered.of_child hc⟩

/-- Nodes that stand one behind the other are in the order of a walk. -/
theorem pairwise_leads_of_before {ts : List Tree} (h : ts.Pairwise Before) : ts.Pairwise Leads :=
  h.imp Or.inl

/-- Other nodes may stand over one that nothing stands below. -/
theorem pairwise_leads_cons {t : Tree} {ts : List Tree} (ht : t.children = [])
    (h : ts.Pairwise Before) : (t :: ts).Pairwise Leads :=
  List.pairwise_cons.mpr ⟨fun _ _ => Or.inr ht, pairwise_leads_of_before h⟩

/-- All texts of a template come before its expressions. -/
theorem pairwise_leads_append {ts us : List Tree} (ht : ∀ t ∈ ts, t.children = [])
    (h : us.Pairwise Before) : (ts ++ us).Pairwise Leads := by
  have hLeads : ∀ t ∈ ts, ∀ u, t.Leads u := fun t hMem _ => Or.inr (ht t hMem)
  refine List.pairwise_append.mpr ⟨?_, pairwise_leads_of_before h, ?_⟩
  · exact List.pairwise_of_forall_mem_list fun t hMem u _ => hLeads t hMem u
  · exact fun t hMem u _ => hLeads t hMem u

/-- The macro calls of a tree are found by their spans. -/
theorem mem_macroCalls {t : Tree} {span : Span} :
    span ∈ t.macroCalls ↔ ∃ n ∈ t.preorder, n.isMacroCall = true ∧ n.span = span := by
  rw [macroCalls, List.mem_filterMap]
  constructor
  · rintro ⟨n, hn, hSome⟩
    split at hSome
    · rename_i hCall
      exact ⟨n, hn, hCall, Option.some.inj hSome⟩
    · cases hSome
  · rintro ⟨n, hn, hCall, rfl⟩
    exact ⟨n, hn, if_pos hCall⟩

/-- A node stands below another one. -/
def Below (n t : Tree) : Prop := ∃ c ∈ t.children, n ∈ c.preorder

theorem Below.mem_preorder {n t : Tree} (h : n.Below t) : n ∈ t.preorder :=
  Tree.mem_preorder.mpr (Or.inr h)

/-- A node stands behind another one in the text, or inside it. -/
def ComesAfter (m n : Tree) : Prop := n.Before m ∨ m.Below n

/-- What comes after a node does not start before it. -/
theorem ComesAfter.start_le {m n : Tree} (h : m.ComesAfter n) (hn : n.WellPlaced) :
    n.span.start ≤ m.span.start := by
  rcases h with hBefore | hBelow
  · exact Nat.le_trans hn.placed.ordered hBefore
  · exact (hn.within hBelow.mem_preorder).1

/-- Everything in a tree stands before everything in one behind it. -/
theorem Before.of_mem {t u m n : Tree} (h : t.Before u) (ht : t.WellPlaced) (hu : u.WellPlaced)
    (hm : m ∈ t.preorder) (hn : n ∈ u.preorder) : m.Before n := by
  have hStop : m.span.stop ≤ t.span.stop := (ht.within hm).2
  have hStart : u.span.start ≤ n.span.start := (hu.within hn).1
  exact Nat.le_trans hStop (Nat.le_trans h hStart)

/-- Nor do parts of a later node start before parts of an earlier one. -/
theorem Before.start_le {t u m n : Tree} (h : t.Before u) (ht : t.WellPlaced) (hu : u.WellPlaced)
    (hm : m ∈ t.preorder) (hn : n ∈ u.preorder) : m.span.start ≤ n.span.start :=
  Nat.le_trans (ht m hm).ordered (h.of_mem ht hu hm hn)

theorem preorder_of_leaf {t : Tree} (h : t.children = []) : t.preorder = [t] := by
  rw [preorder_eq, h, List.flatMap_nil]

/-- A walk meets nodes that come after each other in the text, apart from those that nothing stands
below. -/
theorem LaidOut.pairwise_comesAfter {p : Tree → Bool} (hLeaf : ∀ n, n.children = [] → p n = false)
    {t : Tree} (h : t.LaidOut) :
    (t.preorder.filter p).Pairwise fun m n => n.ComesAfter m := by
  induction t with
  | node kind span children ih =>
      have hEach : ∀ c ∈ children, c.WellPlaced := fun c hc => (h.of_child hc).wellPlaced
      have hBelow : ∀ n ∈ children.flatMap fun c => c.preorder.filter p,
          n.ComesAfter (node kind span children) := by
        intro n hn
        obtain ⟨c, hc, hn⟩ := List.mem_flatMap.mp hn
        exact Or.inr ⟨c, hc, List.mem_of_mem_filter hn⟩
      have hInside : (children.flatMap fun c => c.preorder.filter p).Pairwise
          fun m n => n.ComesAfter m := by
        rw [List.pairwise_flatMap]
        refine ⟨fun c hc => ih c hc (h.of_child hc), ?_⟩
        apply (h.walkOrdered _ (mem_preorder_self _)).imp_of_mem
        rintro a b ha hb (hBefore | hNone) m hm n hn
        · exact Or.inl (hBefore.of_mem (hEach a ha) (hEach b hb) (List.mem_of_mem_filter hm)
            (List.mem_of_mem_filter hn))
        · rw [preorder_of_leaf hNone, List.filter_singleton, hLeaf a hNone] at hm
          cases hm
      rw [preorder_eq, List.filter_cons, Tree.children, List.filter_flatMap]
      split
      · exact List.pairwise_cons.mpr ⟨hBelow, hInside⟩
      · exact hInside

/-- Macro calls are found in the order of a walk. -/
theorem macroCalls_eq_map (t : Tree) :
    t.macroCalls = (t.preorder.filter isMacroCall).map span := by
  rw [macroCalls, ← List.filterMap_eq_map, List.filterMap_filter]
  rfl

/-- A walk meets the macro calls of a tree by their starts. -/
theorem LaidOut.pairwise_macroCalls {t : Tree} (h : t.LaidOut) :
    t.macroCalls.Pairwise fun a b => a.start ≤ b.start := by
  have hLeaf : ∀ n : Tree, n.children = [] → n.isMacroCall = false := by
    rintro ⟨kind, span, children⟩ rfl
    cases kind <;> rfl
  rw [macroCalls_eq_map, List.pairwise_map]
  apply (h.pairwise_comesAfter hLeaf).imp_of_mem
  intro m n hm _ hAfter
  exact hAfter.start_le (h.wellPlaced.of_mem (List.mem_of_mem_filter hm))

end Tree

/-- The top-level statements of a script as its parser lays them out
(`Script.scriptOrdered_of_parse?`). -/
structure ScriptOrdered (program : List Tree) : Prop extends ScriptPlaced program where
  walk : ∀ t ∈ program, t.WalkOrdered

instance (program : List Tree) : Decidable (ScriptOrdered program) :=
  decidable_of_iff (ScriptPlaced program ∧ ∀ t ∈ program, t.WalkOrdered)
    ⟨fun ⟨placed, walk⟩ => ⟨placed, walk⟩, fun ⟨placed, walk⟩ => ⟨placed, walk⟩⟩

end ComponentAnalysis
