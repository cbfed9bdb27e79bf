import ComponentAnalysis.Proofs.Tree.Body

/-! The parts of a component's statement that stand beside its function: what an export adds to the
declaration, the declarators after the first, its pattern and ascription, and what wraps the
initializer. -/
namespace ComponentAnalysis.Tree

/-- The parts of an expression beside the expression inside its wrappers. -/
def besideUnwrap : Tree → List Tree
  | node .asType _ (e :: rest) => rest ++ besideUnwrap e
  | node .satisfiesType _ (e :: rest) => rest ++ besideUnwrap e
  | node .nonNull _ (e :: rest) => rest ++ besideUnwrap e
  | node .typeAssertion _ (type :: e :: rest) => type :: rest ++ besideUnwrap e
  | node .instantiation _ (e :: rest) => rest ++ besideUnwrap e
  | node .parenthesized _ (e :: rest) => rest ++ besideUnwrap e
  | _ => []

/-- The parts of a declarator beside its initializer. -/
def besideValue : Tree → List Tree
  | node (.declarator _) _ (pattern :: rest) =>
    pattern :: rest.eraseP fun t => t.kind ≠ .typeAscription
  | _ => []

/-- The parts of a statement beside the declaration in it. -/
def besideDeclared : Tree → List Tree
  | node .exportNamed _ (d :: rest) => if d.exportableForm = .other then [] else rest
  | node .exportDefault _ (d :: rest) =>
    if d.exportableForm = .function || d.exportableForm = .classDefinition then rest else []
  | _ => []

/-- The parts of a statement beside the function that it declares. -/
def besideFunction (t : Tree) : List Tree :=
  t.besideDeclared ++
    match t.declared.declarators with
    | [] => []
    | first :: others =>
      others ++ (first.besideValue ++ first.declaratorValue?.elim [] besideUnwrap)

/-- A node and some parts beside it have all calls of a tree between them, and the parts stand apart
from the node. -/
structure SplitsAt (t n : Tree) (parts : List Tree) : Prop where
  calls : ∀ m ∈ t.preorder, m.kind = .call → m ∈ n.preorder ∨ ∃ p ∈ parts, m ∈ p.preorder
  inner : n ∈ t.preorder
  within : ∀ p ∈ parts, p ∈ t.preorder
  apart : t.WellPlaced → ∀ p ∈ parts, p.Apart n

theorem SplitsAt.refl (t : Tree) : SplitsAt t t [] where
  calls := fun _ hm _ => Or.inl hm
  inner := t.mem_preorder_self
  within := by simp
  apart := by simp

/-- A child splits off, with the other children beside it. -/
theorem SplitsAt.of_child (kind : Kind) (span : Span) (front : List Tree) (c : Tree)
    (back : List Tree) (hKind : kind ≠ .call) (hOrders : kind.ordersChildren = true) :
    SplitsAt (node kind span (front ++ c :: back)) c (front ++ back) := by
  have hMem : ∀ p ∈ front ++ back, p ∈ (node kind span (front ++ c :: back)).children := by
    intro p hp
    rcases List.mem_append.mp hp with hp | hp
    · exact List.mem_append_left _ hp
    · exact List.mem_append_right front (List.mem_cons_of_mem c hp)
  have hChild : c ∈ (node kind span (front ++ c :: back)).children :=
    List.mem_append_right front List.mem_cons_self
  refine ⟨?_, mem_preorder_of_mem_children hChild,
    fun p hp => mem_preorder_of_mem_children (hMem p hp), ?_⟩
  · intro m hm hCall
    rcases mem_preorder.mp hm with rfl | ⟨child, hIn, hBelow⟩
    · exact absurd hCall hKind
    · rcases List.mem_append.mp hIn with hFront | hIn
      · exact Or.inr ⟨child, List.mem_append_left back hFront, hBelow⟩
      · rcases List.mem_cons.mp hIn with rfl | hBack
        · exact Or.inl hBelow
        · exact Or.inr ⟨child, List.mem_append_right front hBack, hBelow⟩
  · intro hWell p hp
    obtain ⟨-, hAfter, hBefore⟩ := List.pairwise_append.mp (hWell.placed.apart hOrders)
    rcases List.mem_append.mp hp with hp | hp
    · exact Or.inl (hBefore p hp c List.mem_cons_self)
    · exact Or.inr ((List.pairwise_cons.mp hAfter).1 p hp)

/-- A node inside a node splits the tree, with the parts beside both. -/
theorem SplitsAt.trans {t u n : Tree} {parts parts' : List Tree} (h : SplitsAt t u parts)
    (h' : SplitsAt u n parts') : SplitsAt t n (parts ++ parts') := by
  refine ⟨?_, mem_preorder_trans h'.inner h.inner, ?_, ?_⟩
  · intro m hm hCall
    rcases h.calls m hm hCall with hIn | ⟨p, hp, hIn⟩
    · rcases h'.calls m hIn hCall with hInner | ⟨p, hp, hIn⟩
      · exact Or.inl hInner
      · exact Or.inr ⟨p, List.mem_append_right parts hp, hIn⟩
    · exact Or.inr ⟨p, List.mem_append_left parts' hp, hIn⟩
  · intro p hp
    rcases List.mem_append.mp hp with hp | hp
    · exact h.within p hp
    · exact mem_preorder_trans (h'.within p hp) h.inner
  · intro hWell p hp
    have hInner := hWell.of_mem h.inner
    rcases List.mem_append.mp hp with hp | hp
    · exact (h.apart hWell p hp).of_within (Span.Within.refl _)
        (hInner.within h'.inner)
    · exact h'.apart hInner p hp

/-- A statement is what it declares, and what an export adds. -/
theorem declared_splitsAt (t : Tree) : SplitsAt t t.declared t.besideDeclared := by
  fun_cases besideDeclared t with
  | case1 span d rest hOther =>
      rw [declared, if_pos hOther]
      exact SplitsAt.refl _
  | case2 span d rest hOther =>
      rw [declared, if_neg hOther]
      exact SplitsAt.of_child .exportNamed span [] d rest Kind.noConfusion rfl
  | case3 span d rest hForm =>
      rw [declared, if_pos hForm]
      exact SplitsAt.of_child .exportDefault span [] d rest Kind.noConfusion rfl
  | case4 span d rest hForm =>
      rw [declared, if_neg hForm]
      exact SplitsAt.refl _
  | case5 _ hNamed hDefault =>
      have hSelf : t.declared = t := by
        unfold declared
        split
        · exact absurd rfl (hNamed _ _ _)
        · exact absurd rfl (hDefault _ _ _)
        · rfl
      rw [hSelf]
      exact SplitsAt.refl _

/-- An expression is its value, and what the wrappers add. -/
theorem unwrap_splitsAt (t : Tree) : SplitsAt t t.unwrap t.besideUnwrap := by
  fun_induction besideUnwrap t with
  | case1 span e rest ih =>
      rw [unwrap]
      exact (SplitsAt.of_child .asType span [] e rest Kind.noConfusion rfl).trans ih
  | case2 span e rest ih =>
      rw [unwrap]
      exact (SplitsAt.of_child .satisfiesType span [] e rest Kind.noConfusion rfl).trans ih
  | case3 span e rest ih =>
      rw [unwrap]
      exact (SplitsAt.of_child .nonNull span [] e rest Kind.noConfusion rfl).trans ih
  | case4 span type e rest ih =>
      rw [unwrap]
      exact (SplitsAt.of_child .typeAssertion span [type] e rest Kind.noConfusion rfl).trans ih
  | case5 span e rest ih =>
      rw [unwrap]
      exact (SplitsAt.of_child .instantiation span [] e rest Kind.noConfusion rfl).trans ih
  | case6 span e rest ih =>
      rw [unwrap]
      exact (SplitsAt.of_child .parenthesized span [] e rest Kind.noConfusion rfl).trans ih
  | case7 t hAs hSatisfies hNonNull hAssertion hInstantiation hParenthesized =>
      have hSelf : t.unwrap = t := by
        unfold unwrap
        split
        · exact absurd rfl (hAs _ _ _)
        · exact absurd rfl (hSatisfies _ _ _)
        · exact absurd rfl (hNonNull _ _ _)
        · exact absurd rfl (hAssertion _ _ _ _)
        · exact absurd rfl (hInstantiation _ _ _)
        · exact absurd rfl (hParenthesized _ _ _)
        · rfl
      rw [hSelf]
      exact SplitsAt.refl _

/-- A variable is its initializer, and its pattern with its type. -/
theorem declaratorValue?_splitsAt {d v : Tree} (h : d.declaratorValue? = some v) :
    SplitsAt d v d.besideValue := by
  fun_cases declaratorValue? d with
  | case1 kind span pattern rest =>
      obtain ⟨hKind, before, after, hRest, hBefore⟩ := List.find?_eq_some_iff_append.mp h
      have hErase : rest.eraseP (fun t => decide (t.kind ≠ .typeAscription)) = before ++ after := by
        rw [hRest, List.eraseP_append_right _ (by simpa using hBefore)]
        exact congrArg (before ++ ·) (List.eraseP_cons_of_pos hKind)
      rw [besideValue, hErase, hRest]
      exact SplitsAt.of_child (.declarator kind) span (pattern :: before) v after
        Kind.noConfusion rfl
  | case2 => simp_all [declaratorValue?]

/-- The function of a statement and the parts beside it have all calls of the statement. -/
theorem functionInfo_splitsAt {t f : Tree} (h : t.functionInfo.1 = some f) :
    SplitsAt t f t.besideFunction := by
  have hDeclared := t.declared_splitsAt
  rcases functionInfo_cases h with ⟨hForm, rfl⟩ | ⟨d, v, hFirst, hv, rfl, -⟩
  · have hNone : t.declared.declarators = [] := by
      unfold declarators
      split
      · rename_i hEq
        rw [hEq] at hForm
        cases hForm
      · rfl
    rw [besideFunction, hNone, List.append_nil]
    exact hDeclared
  · cases hDeclarators : t.declared.declarators with
    | nil => simp [hDeclarators] at hFirst
    | cons first others =>
        obtain rfl : first = d := by simpa [hDeclarators] using hFirst
        have hStatement : SplitsAt t.declared first others := by
          unfold declarators at hDeclarators
          split at hDeclarators
          · rename_i kind span children hEq
            rw [hEq, hDeclarators]
            exact SplitsAt.of_child (.variableStatement kind) span [] first others
              Kind.noConfusion rfl
          · cases hDeclarators
        rw [besideFunction, hDeclarators]
        simp only [hv, Option.elim_some]
        exact hDeclared.trans
          (hStatement.trans ((declaratorValue?_splitsAt hv).trans v.unwrap_splitsAt))

end ComponentAnalysis.Tree
