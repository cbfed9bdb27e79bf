import ComponentAnalysis.Proofs.Component.Declaration
import ComponentAnalysis.Proofs.Tree.Calls

/-! Which variable a call initializes. The analysis looks it up by the span of the call; in a tree
whose calls are told apart by their spans, it finds the one variable whose initializer is the call,
apart from wrappers. -/
namespace ComponentAnalysis.Tree

/-- A variable whose initializer is a node, apart from wrappers. -/
def IsInitializedBy (d c : Tree) : Prop :=
  ∃ value, d.declaratorValue? = some value ∧ value.unwrap = c

/-- An initializer is below its variable. -/
theorem IsInitializedBy.mem_preorder {c d : Tree} (h : d.IsInitializedBy c) : c ∈ d.preorder := by
  obtain ⟨value, hValue, rfl⟩ := h
  exact unwrap_mem_preorder_of_declaratorValue? hValue

/-- If it is a call, it is among the calls below the variable. -/
theorem IsInitializedBy.mem_calls {c d : Tree} (h : d.IsInitializedBy c) (hCall : c.kind = .call) :
    c ∈ d.calls :=
  Tree.mem_calls.mpr ⟨h.mem_preorder, hCall⟩

/-- Only declarators have initializers. -/
theorem IsInitializedBy.ne_of_kind {c d n : Tree} (h : d.IsInitializedBy c)
    (hKind : ∀ kind, n.kind ≠ .declarator kind) : d ≠ n := by
  rintro rfl
  obtain ⟨value, hValue, -⟩ := h
  unfold declaratorValue? at hValue
  split at hValue
  · exact hKind _ rfl
  · cases hValue

variable {c d d' t : Tree}

/-- No variable stands around a call inside the wrappers of an initializer. -/
theorem not_mem_of_unwrap_eq {v : Tree} (hApart : v.CallsApart) (hUnwrap : v.unwrap = c)
    (hCall : c.kind = .call) (h : d.IsInitializedBy c) : d ∉ v.preorder := by
  intro hd
  induction v with
  | node kind span children ih =>
      rcases unwrap_eq_self_or (node kind span children) with hSelf | ⟨e, he, hSame, hKind, -⟩
      · obtain rfl : node kind span children = c := hSelf.symm.trans hUnwrap
        have hNe : d ≠ node kind span children :=
          h.ne_of_kind (by simp [hCall])
        obtain ⟨e, he, hd⟩ := (mem_preorder.mp hd).resolve_left hNe
        exact hApart.span_ne hCall he (mem_calls_of_mem (h.mem_calls hCall) hd) rfl
      · -- The variable stands in the part that the wrapper wraps, as the call does.
        have hUnwrap : e.unwrap = c := hSame.symm.trans hUnwrap
        have hIn : c ∈ e.calls := mem_calls.mpr ⟨hUnwrap ▸ e.unwrap_mem_preorder, hCall⟩
        exact ih e he (hApart.of_child he) hUnwrap
          (hApart.mem_child_of_mem he hIn hd (h.ne_of_kind hKind) (h.mem_calls hCall))

/-- No variable in a variable is initialized by the same call. -/
theorem IsInitializedBy.not_mem_child (hApart : d.CallsApart) (hCall : c.kind = .call)
    (h : d.IsInitializedBy c) (h' : d'.IsInitializedBy c) {a : Tree} (ha : a ∈ d.children) :
    d' ∉ a.preorder := by
  intro hd'
  obtain ⟨value, hValue, hUnwrap⟩ := h
  have hChild := mem_children_of_declaratorValue? hValue
  have hIn : c ∈ value.calls := Tree.mem_calls.mpr ⟨hUnwrap ▸ value.unwrap_mem_preorder, hCall⟩
  obtain rfl := hApart.child_eq hChild ha hIn (mem_calls_of_mem (h'.mem_calls hCall) hd') rfl
  exact not_mem_of_unwrap_eq (hApart.of_child hChild) hUnwrap hCall h' hd'

/-- A call initializes one variable at most. -/
theorem IsInitializedBy.unique (hApart : t.CallsApart) (hCall : c.kind = .call)
    (hd : d ∈ t.preorder) (hd' : d' ∈ t.preorder) (h : d.IsInitializedBy c)
    (h' : d'.IsInitializedBy c) : d = d' := by
  have hEq : ∀ {d d' : Tree}, d ∈ t.preorder → d.IsInitializedBy c → d'.IsInitializedBy c →
      d' ∈ d.preorder → d' = d := by
    intro d d' hd h h' hIn
    rcases Tree.mem_preorder.mp hIn with hSame | ⟨a, ha, hIn⟩
    · exact hSame
    · exact absurd hIn (h.not_mem_child (hApart.of_mem hd) hCall h' ha)
  rcases hApart.mem_or_mem hd hd' (h.mem_calls hCall) (h'.mem_calls hCall) with hIn | hIn
  · exact hEq hd' h' h hIn
  · exact (hEq hd h h' hIn).symm

/-- The name of a variable whose initializer is the call at a span. -/
def boundName? (d : Tree) (span : Span) : Option String :=
  match d.declaratorName?, d.declaratorValue?.map unwrap with
  | some name, some value => if value.kind = .call ∧ value.span = span then some name else none
  | _, _ => none

/-- The lookup takes the first variable in preorder that names the span. -/
theorem bindingOfCall?_eq (t : Tree) (span : Span) :
    t.bindingOfCall? span = t.preorder.findSome? fun d => d.boundName? span := rfl

section

variable {name : String} (hApart : t.CallsApart) (hc : c ∈ t.calls)

include hApart hc

/-- The lookup compares spans, and those of two calls in one tree differ. -/
theorem boundName?_eq_some_iff (hd : d ∈ t.preorder) :
    d.boundName? c.span = some name ↔ d.declaratorName? = some name ∧ d.IsInitializedBy c := by
  cases hName : d.declaratorName? with
  | none => simp [boundName?, hName]
  | some own =>
      cases hValue : d.declaratorValue? with
      | none => simp [boundName?, IsInitializedBy, hValue]
      | some value =>
          have hMem : value.unwrap ∈ t.preorder :=
            mem_preorder_trans (unwrap_mem_preorder_of_declaratorValue? hValue) hd
          have hSame : (value.unwrap.kind = .call ∧ value.unwrap.span = c.span) ↔
              value.unwrap = c := by
            constructor
            · rintro ⟨hKind, hSpan⟩
              exact hApart.eq_of_span_eq (mem_calls.mpr ⟨hMem, hKind⟩) hc hSpan
            · rintro rfl
              exact ⟨(mem_calls.mp hc).2, rfl⟩
          simp [boundName?, IsInitializedBy, hName, hValue, hSame, and_comm]

/-- The lookup of a call finds the name of the variable that the call initializes. -/
theorem bindingOfCall?_eq_some_iff :
    t.bindingOfCall? c.span = some name ↔
      ∃ d ∈ t.preorder, d.declaratorName? = some name ∧ d.IsInitializedBy c := by
  rw [bindingOfCall?_eq]
  constructor
  · intro h
    obtain ⟨d, hd, hName⟩ := List.exists_of_findSome?_eq_some h
    exact ⟨d, hd, (boundName?_eq_some_iff hApart hc hd).mp hName⟩
  · rintro ⟨d, hd, hName, hInit⟩
    have hBound := (boundName?_eq_some_iff hApart hc hd).mpr ⟨hName, hInit⟩
    cases hFound : t.preorder.findSome? fun d => d.boundName? c.span with
    | none =>
        rw [List.findSome?_eq_none_iff.mp hFound d hd] at hBound
        cases hBound
    | some found =>
        obtain ⟨d', hd', hName'⟩ := List.exists_of_findSome?_eq_some hFound
        obtain ⟨hName', hInit'⟩ := (boundName?_eq_some_iff hApart hc hd').mp hName'
        obtain rfl := hInit.unique hApart (mem_calls.mp hc).2 hd hd' hInit'
        rw [← hName', hName]

end

end ComponentAnalysis.Tree
