import ComponentAnalysis.Proofs.Component.Declaration
import ComponentAnalysis.Proofs.Tree.Numbering
import Mathlib.Data.List.Pairwise

/-! The statements of a function's body among the other nodes of the function. A call in a function
lies in one of the statements or stands apart from all of them, in a parameter or a directive. -/
namespace ComponentAnalysis.Tree

/-- Two nodes stand one behind the other. -/
def Apart (a b : Tree) : Prop := a.Before b ∨ b.Before a

instance (a b : Tree) : Decidable (a.Apart b) := inferInstanceAs (Decidable (_ ∨ _))

instance : Std.Symm Apart := ⟨fun _ _ h => Or.symm h⟩

/-- A span that is not empty does not lie in two nodes that stand apart. -/
theorem Apart.not_within {a b : Tree} (h : a.Apart b) {span : Span}
    (hSpan : span.start < span.stop) (hA : span.Within a.span) : ¬ span.Within b.span := by
  intro hB
  have hStart := hA.1
  have hStop := hA.2
  have hStart' := hB.1
  have hStop' := hB.2
  rcases h with h | h
  · have hBefore : a.span.stop ≤ b.span.start := h
    omega
  · have hBefore : b.span.stop ≤ a.span.start := h
    omega

/-- Parts of nodes that stand apart stand apart. -/
theorem Apart.of_within {a b m n : Tree} (h : a.Apart b) (hm : m.span.Within a.span)
    (hn : n.span.Within b.span) : m.Apart n := by
  rcases h with h | h
  · exact Or.inl (Nat.le_trans hm.2 (Nat.le_trans h hn.1))
  · exact Or.inr (Nat.le_trans hn.2 (Nat.le_trans h hm.1))

/-- The parts of a function are in the order of the text. -/
theorem ordersChildren_of_isFunction {f : Tree} (h : f.isFunction = true) :
    f.kind.ordersChildren = true := by
  unfold isFunction at h
  split at h
  · simp_all [Kind.ordersChildren]
  · simp_all [Kind.ordersChildren]
  · cases h

/-- A function has a body among its children, whose statements are those that are no directives. -/
structure HasBody (f : Tree) (before : List Tree) (body : Tree) (after : List Tree) : Prop where
  children : f.children = before ++ body :: after
  kind : body.kind = .functionBody
  statements : f.bodyStatements = body.children.filter fun s => s.kind ≠ .directive

/-- A function has no statements, or a body that holds them. -/
theorem bodyStatements_cases (f : Tree) :
    f.bodyStatements = [] ∨ ∃ before body after, f.HasBody before body after := by
  cases hBody : f.child? (· = .functionBody) with
  | none => exact Or.inl (by simp [bodyStatements, hBody])
  | some body =>
      obtain ⟨hKind, before, after, hChildren, -⟩ := List.find?_eq_some_iff_append.mp hBody
      exact Or.inr ⟨before, body, after, hChildren, of_decide_eq_true hKind,
        by simp [bodyStatements, hBody]⟩

section

variable {f body : Tree} {before after : List Tree} (h : f.HasBody before body after)

include h

theorem HasBody.mem_children : body ∈ f.children := by
  rw [h.children]
  exact List.mem_append_cons_self

/-- The statements are those of the body that are no directives. -/
theorem HasBody.mem_statements {s : Tree} :
    s ∈ f.bodyStatements ↔ s ∈ body.children ∧ s.kind ≠ .directive := by
  rw [h.statements, List.mem_filter, decide_eq_true_iff]

/-- They stand one behind the other. -/
theorem HasBody.pairwise (hWell : f.WellPlaced) : body.children.Pairwise Before :=
  (hWell.of_child h.mem_children).placed.apart (by rw [h.kind]; rfl)

end

/-- All nodes of a statement are below the function. -/
theorem mem_preorder_of_bodyStatements {f statement n : Tree}
    (hStatement : statement ∈ f.bodyStatements) (hn : n ∈ statement.preorder) :
    n ∈ f.preorder := by
  rcases f.bodyStatements_cases with hNone | ⟨before, body, after, hBody⟩
  · rw [hNone] at hStatement
    cases hStatement
  · exact mem_preorder_of_child hBody.mem_children
      (mem_preorder_of_child (hBody.mem_statements.mp hStatement).1 hn)

section

variable {f : Tree} (hWell : f.WellPlaced)

include hWell

/-- The statements of a placed function are placed. -/
theorem wellPlaced_of_bodyStatements {statement : Tree} (h : statement ∈ f.bodyStatements) :
    statement.WellPlaced :=
  hWell.of_mem (mem_preorder_of_bodyStatements h statement.mem_preorder_self)

/-- They stand one behind the other. -/
theorem bodyStatements_pairwise : f.bodyStatements.Pairwise Before := by
  rcases f.bodyStatements_cases with hNone | ⟨before, body, after, hBody⟩
  · rw [hNone]
    exact List.Pairwise.nil
  · rw [hBody.statements]
    exact (hBody.pairwise hWell).filter _

end

theorem apart_of_pairwise {ts : List Tree} (h : ts.Pairwise Before) {a b : Tree} (ha : a ∈ ts)
    (hb : b ∈ ts) (hNe : a ≠ b) : a.Apart b := by
  have hApart : ts.Pairwise Apart := h.imp Or.inl
  exact hApart.forall ha hb hNe

/-- Items from which nothing is collected may be left out. -/
theorem flatMap_eq_filter {α β : Type} (p : α → Bool) (g : α → List β) (xs : List α)
    (h : ∀ x ∈ xs, p x = false → g x = []) : xs.flatMap g = (xs.filter p).flatMap g := by
  induction xs with
  | nil => rfl
  | cons x xs ih =>
      have hRest := ih fun y hy => h y (List.mem_cons_of_mem x hy)
      cases hx : p x with
      | true => rw [List.filter_cons_of_pos hx, List.flatMap_cons, List.flatMap_cons, hRest]
      | false =>
          rw [List.filter_cons_of_neg (by simp [hx]), List.flatMap_cons, hRest,
            h x List.mem_cons_self hx, List.nil_append]

section

variable {α : Type} {f : Tree} (hWell : f.WellPlaced) (collect : Tree → List α)
  (hOther : ∀ n, n.kind ≠ .call → collect n = [])
  (hApart : ∀ n ∈ f.preorder, n.kind = .call →
    (∀ statement ∈ f.bodyStatements, n.Apart statement) → collect n = [])

include hOther

theorem flatMap_preorder_of_ne_call {t : Tree} (hKind : t.kind ≠ .call) :
    t.preorder.flatMap collect = t.children.flatMap fun c => c.preorder.flatMap collect := by
  rw [preorder_eq, List.flatMap_cons, hOther t hKind, List.nil_append, List.flatMap_assoc]

include hWell hApart

/-- Nothing is collected from a part of a function that stands apart from the statements. -/
theorem flatMap_preorder_of_apart {t : Tree} (ht : t ∈ f.preorder)
    (hAway : ∀ statement ∈ f.bodyStatements, t.Apart statement) :
    t.preorder.flatMap collect = [] := by
  apply List.flatMap_eq_nil_iff.mpr
  intro n hn
  by_cases hKind : n.kind = .call
  · have hWithin := (hWell.of_mem ht).within hn
    apply hApart n (mem_preorder_trans hn ht) hKind
    intro statement hStatement
    exact (hAway statement hStatement).of_within hWithin (Span.Within.refl _)
  · exact hOther n hKind

section

variable {before after : List Tree} {body : Tree} (hBody : f.HasBody before body after)

include hBody

/-- Of the children of a function only the body is not apart from the statements. -/
theorem flatMap_children_eq_body (hFunction : f.isFunction = true) :
    f.children.flatMap (fun c => c.preorder.flatMap collect) = body.preorder.flatMap collect := by
  have hBeside : ∀ c ∈ f.children, c.Apart body → c.preorder.flatMap collect = [] := by
    intro c hc hAway
    apply flatMap_preorder_of_apart hWell collect hOther hApart
      (mem_preorder_of_mem_children hc)
    intro statement hStatement
    have hWithin := (hWell.of_child hBody.mem_children).placed.within statement
      (hBody.mem_statements.mp hStatement).1
    exact hAway.of_within (Span.Within.refl _) hWithin
  have hOrder := hWell.placed.apart (ordersChildren_of_isFunction hFunction)
  rw [hBody.children] at hOrder
  obtain ⟨-, hAfter, hBefore⟩ := List.pairwise_append.mp hOrder
  have hFront : before.flatMap (fun c => c.preorder.flatMap collect) = [] := by
    apply List.flatMap_eq_nil_iff.mpr
    intro c hc
    apply hBeside c (by rw [hBody.children]; exact List.mem_append_left _ hc)
    exact Or.inl (hBefore c hc body List.mem_cons_self)
  have hBack : after.flatMap (fun c => c.preorder.flatMap collect) = [] := by
    apply List.flatMap_eq_nil_iff.mpr
    intro c hc
    apply hBeside c
    · rw [hBody.children]
      exact List.mem_append_right before (List.mem_cons_of_mem body hc)
    · exact Or.inr ((List.pairwise_cons.mp hAfter).1 c hc)
  rw [hBody.children, List.flatMap_append, List.flatMap_cons, hFront, hBack, List.nil_append,
    List.append_nil]

/-- The directives of a body are apart from its statements. -/
theorem flatMap_body_eq_statements :
    body.preorder.flatMap collect =
      f.bodyStatements.flatMap fun statement => statement.preorder.flatMap collect := by
  have hDirectives : ∀ s ∈ body.children, decide (s.kind ≠ .directive) = false →
      s.preorder.flatMap collect = [] := by
    intro s hs hDirective
    apply flatMap_preorder_of_apart hWell collect hOther hApart
      (mem_preorder_of_child hBody.mem_children (mem_preorder_of_mem_children hs))
    intro statement hStatement
    obtain ⟨hChild, hNot⟩ := hBody.mem_statements.mp hStatement
    apply apart_of_pairwise (hBody.pairwise hWell) hs hChild
    rintro rfl
    exact of_decide_eq_false hDirective hNot
  have hBodyKind : body.kind ≠ .call := by
    rw [hBody.kind]
    exact Kind.noConfusion
  rw [flatMap_preorder_of_ne_call collect hOther hBodyKind, hBody.statements]
  exact flatMap_eq_filter _ _ _ hDirectives

end

/-- What is collected from the calls of a function comes from the statements of its body, if nothing
is collected from calls that stand apart from them. -/
theorem flatMap_preorder_eq_body (hFunction : f.isFunction = true) :
    f.preorder.flatMap collect =
      f.bodyStatements.flatMap fun statement => statement.preorder.flatMap collect := by
  have hSelf : f.kind ≠ .call := by
    intro hKind
    simp [isFunction, hKind] at hFunction
  rw [flatMap_preorder_of_ne_call collect hOther hSelf]
  rcases f.bodyStatements_cases with hNone | ⟨before, body, after, hBody⟩
  · rw [hNone, List.flatMap_nil]
    apply List.flatMap_eq_nil_iff.mpr
    intro c hc
    apply flatMap_preorder_of_apart hWell collect hOther hApart
      (mem_preorder_of_mem_children hc)
    simp [hNone]
  · rw [flatMap_children_eq_body hWell collect hOther hApart hBody hFunction]
    exact flatMap_body_eq_statements hWell collect hOther hApart hBody

end

/-- A call in a function lies in a statement of the body or stands apart from all of them. -/
theorem mem_statement_or_apart {f n : Tree} (hWell : f.WellPlaced) (hFunction : f.isFunction = true)
    (hn : n ∈ f.preorder) (hKind : n.kind = .call) :
    (∃ statement ∈ f.bodyStatements, n ∈ statement.preorder) ∨
      ∀ statement ∈ f.bodyStatements, n.Apart statement := by
  by_cases hAway : ∀ statement ∈ f.bodyStatements, n.Apart statement
  · exact Or.inr hAway
  · -- Collect the calls that are not apart from all statements: all of them come from the body.
    have hMem : n ∈ f.preorder.flatMap fun m =>
        if m.kind = .call ∧ ¬ ∀ statement ∈ f.bodyStatements, m.Apart statement then [m]
        else [] := by
      apply List.mem_flatMap.mpr
      exact ⟨n, hn, List.mem_ite_nil_right.mpr ⟨⟨hKind, hAway⟩, List.mem_singleton_self n⟩⟩
    rw [flatMap_preorder_eq_body hWell _ (fun m hm => if_neg fun h => hm h.1)
      (fun m _ _ hm => if_neg fun h => h.2 hm) hFunction] at hMem
    obtain ⟨statement, hStatement, hMem⟩ := List.mem_flatMap.mp hMem
    obtain ⟨m, hm, hIn⟩ := List.mem_flatMap.mp hMem
    rw [← List.mem_singleton.mp (List.mem_ite_nil_right.mp hIn).2] at hm
    exact Or.inl ⟨statement, hStatement, hm⟩

section

variable {f n : Tree} (hWell : f.WellPlaced)

include hWell

/-- The index of a body finds the statement that holds a node, whichever nodes share its span. -/
theorem rootOf?_find?_bodyStatements {s : Nat} {statement : Tree}
    (hAt : f.bodyStatements[s]? = some statement) (hn : n ∈ statement.preorder)
    (hCovers : n.span.start < n.span.stop) :
    ((TreeIndex.ofTrees f.bodyStatements).find? n.span).bind
      (TreeIndex.ofTrees f.bodyStatements).rootOf? = some s := by
  apply TreeIndex.rootOf?_find? hAt ⟨n, hn, rfl⟩
  rintro s' t' ht' ⟨m, hm, hSpan⟩
  -- Another node with this span lies in the same statement, as the span is not empty.
  have hWithin := (wellPlaced_of_bodyStatements hWell (List.mem_of_getElem? ht')).within hm
  rw [hSpan] at hWithin
  exact index_eq_of_within (bodyStatements_pairwise hWell) ht' hAt hCovers hWithin
    ((wellPlaced_of_bodyStatements hWell (List.mem_of_getElem? hAt)).within hn)

/-- A node away from all statements is not found among them. -/
theorem find?_bodyStatements_of_apart (hCovers : n.span.start < n.span.stop)
    (hAway : ∀ statement ∈ f.bodyStatements, n.Apart statement) :
    (TreeIndex.ofTrees f.bodyStatements).find? n.span = none := by
  apply TreeIndex.find?_eq_none
  intro m hm hSpan
  obtain ⟨statement, hStatement, hm⟩ := List.mem_flatMap.mp hm
  have hWithin := (wellPlaced_of_bodyStatements hWell hStatement).within hm
  rw [hSpan] at hWithin
  exact (hAway statement hStatement).not_within hCovers (Span.Within.refl _) hWithin

end

end ComponentAnalysis.Tree
