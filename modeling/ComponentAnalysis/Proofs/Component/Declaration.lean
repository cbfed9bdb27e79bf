import ComponentAnalysis.Component.Declaration
import ComponentAnalysis.Proofs.Tree.Placement

/-! The components of a file, one for each statement that declares one, and where their functions
and the macro calls of these stand. -/
namespace ComponentAnalysis

namespace Tree

/-- What an export declares is a node of the statement. -/
theorem declared_mem_preorder (t : Tree) : t.declared ∈ t.preorder := by
  fun_cases declared t with
  | case1 span d rest hOther => exact mem_preorder_self _
  | case2 span d rest hOther =>
      exact mem_preorder_of_mem_children List.mem_cons_self
  | case3 span d rest hForm =>
      exact mem_preorder_of_mem_children List.mem_cons_self
  | case4 span d rest hForm => exact mem_preorder_self _
  | case5 => exact mem_preorder_self _

/-- A node is a value itself or a wrapper of the one that a child wraps. -/
theorem unwrap_eq_self_or (t : Tree) :
    t.unwrap = t ∨
      ∃ e ∈ t.children, t.unwrap = e.unwrap ∧ (∀ kind, t.kind ≠ .declarator kind) ∧
        t.kind.ordersChildren = true := by
  fun_cases unwrap t with
  | case1 span e rest => exact Or.inr ⟨e, List.mem_cons_self, rfl, by simp [kind], rfl⟩
  | case2 span e rest => exact Or.inr ⟨e, List.mem_cons_self, rfl, by simp [kind], rfl⟩
  | case3 span e rest => exact Or.inr ⟨e, List.mem_cons_self, rfl, by simp [kind], rfl⟩
  | case4 span type e rest =>
      exact Or.inr ⟨e, List.mem_cons_of_mem type List.mem_cons_self, rfl, by simp [kind], rfl⟩
  | case5 span e rest => exact Or.inr ⟨e, List.mem_cons_self, rfl, by simp [kind], rfl⟩
  | case6 span e rest => exact Or.inr ⟨e, List.mem_cons_self, rfl, by simp [kind], rfl⟩
  | case7 => exact Or.inl rfl

/-- Wrappers stand around a value that is one of the nodes below them. -/
theorem unwrap_mem_preorder (t : Tree) : t.unwrap ∈ t.preorder := by
  induction t with
  | node kind span children ih =>
      rcases unwrap_eq_self_or (node kind span children) with hSelf | ⟨e, he, hSame, -⟩
      · rw [hSelf]
        exact mem_preorder_self _
      · rw [hSame]
        exact mem_preorder_of_child he (ih e he)

theorem mem_children_of_child? {c t : Tree} {p : Kind → Bool} (h : t.child? p = some c) :
    c ∈ t.children :=
  List.mem_of_find?_eq_some h

/-- Parameters stand in the one list that a function has of them. -/
theorem exists_parameterList_of_mem {p f : Tree} (h : p ∈ f.parameters) :
    ∃ list ∈ f.preorder, f.parameterList? = some list ∧ p ∈ list.preorder := by
  unfold parameters at h
  split at h
  · rename_i list hList
    have hIn := mem_preorder_of_mem_children (mem_children_of_child? hList)
    exact ⟨list, hIn, hList, mem_preorder_of_mem_children (List.mem_of_mem_filter h)⟩
  · cases h

theorem mem_children_of_mem_declarators {d t : Tree} (h : d ∈ t.declarators) : d ∈ t.children := by
  fun_cases declarators t with
  | case1 kind span children => exact h
  | case2 => simp_all [declarators]

theorem mem_children_of_declaratorValue? {d v : Tree} (h : d.declaratorValue? = some v) :
    v ∈ d.children := by
  fun_cases declaratorValue? d with
  | case1 kind span pattern rest =>
      exact List.mem_cons_of_mem pattern (List.mem_of_find?_eq_some h)
  | case2 => simp_all [declaratorValue?]

/-- The value of a variable stands below the variable, with or without its wrappers. -/
theorem unwrap_mem_preorder_of_declaratorValue? {d v : Tree} (h : d.declaratorValue? = some v) :
    v.unwrap ∈ d.preorder :=
  mem_preorder_of_child (mem_children_of_declaratorValue? h) v.unwrap_mem_preorder

/-- The function of a statement is the declared function itself, or the unwrapped initializer of the
first declarator. -/
theorem functionInfo_cases {t f : Tree} (h : t.functionInfo.1 = some f) :
    (t.declared.exportableForm = .function ∧ f = t.declared) ∨
      ∃ d v, t.declared.declarators.head? = some d ∧ d.declaratorValue? = some v ∧
        f = v.unwrap ∧ f.isFunction = true := by
  simp only [functionInfo] at h
  split at h
  · rename_i hForm
    exact Or.inl ⟨hForm, (Option.some.inj h).symm⟩
  · split at h
    · cases h
    · rename_i d hFirst
      split at h
      · cases h
      · obtain ⟨hValue, hFunction⟩ := Option.filter_eq_some_iff.mp h
        obtain ⟨v, hv, hUnwrap⟩ := Option.map_eq_some_iff.mp hValue
        exact Or.inr ⟨d, v, hFirst, hv, hUnwrap.symm, hFunction⟩
  · cases h

/-- The function of a component stands in its statement. -/
theorem functionInfo_mem_preorder {t f : Tree} (h : t.functionInfo.1 = some f) :
    f ∈ t.preorder := by
  refine mem_preorder_trans ?_ t.declared_mem_preorder
  rcases functionInfo_cases h with ⟨-, rfl⟩ | ⟨d, v, hFirst, hv, rfl, -⟩
  · exact mem_preorder_self _
  · have hDeclarator := mem_children_of_mem_declarators (List.mem_of_head? hFirst)
    exact mem_preorder_of_child hDeclarator
      (mem_preorder_of_child (mem_children_of_declaratorValue? hv) v.unwrap_mem_preorder)

/-- What counts as a function for an export is one. -/
theorem isFunction_of_exportableForm {t : Tree} (h : t.exportableForm = .function) :
    t.isFunction = true := by
  unfold exportableForm at h
  unfold isFunction
  split at h <;> simp_all

/-- A statement gives functions only. -/
theorem functionInfo_isFunction {t f : Tree} (h : t.functionInfo.1 = some f) :
    f.isFunction = true := by
  rcases functionInfo_cases h with ⟨hForm, rfl⟩ | ⟨d, v, -, -, -, hFunction⟩
  · exact isFunction_of_exportableForm hForm
  · exact hFunction

/-- Only calls have a callee. -/
theorem callee?_eq_none {t : Tree} (h : t.kind ≠ .call) : t.callee? = none := by
  unfold callee?
  split
  · exact absurd rfl h
  · rfl

theorem calleeName?_eq_none {t : Tree} (h : t.kind ≠ .call) : t.calleeName? = none := by
  unfold calleeName?
  rw [callee?_eq_none h, Option.bind_none]

/-- Only calls are macros. -/
theorem macroName?_eq_none {t : Tree} (h : t.kind ≠ .call) : t.macroName? = none := by
  unfold macroName?
  rw [callee?_eq_none h, Option.bind_none]

theorem kind_of_macroName? {t : Tree} {name : MacroName} (h : t.macroName? = some name) :
    t.kind = .call := by
  by_contra hKind
  rw [macroName?_eq_none hKind] at h
  cases h

/-- Each macro call below a function has its site there. -/
theorem mem_macroSites {f n : Tree} {name : MacroName} (hn : n ∈ f.preorder)
    (hName : n.macroName? = some name) : MacroSite.ofCall f n name ∈ f.macroSites := by
  rw [macroSites, List.mem_filterMap]
  exact ⟨n, hn, by rw [hName, Option.map_some]⟩

/-- No call is empty. -/
theorem WellPlaced.covers_call {n t : Tree} (h : t.WellPlaced) (hn : n ∈ t.preorder)
    (hKind : n.kind = .call) : n.span.start < n.span.stop :=
  h.covers hn (by rw [hKind]; rfl)

end Tree

@[simp] theorem MacroSite.span_ofCall (f call : Tree) (name : MacroName) :
    (MacroSite.ofCall f call name).span = call.span := rfl

/-- The components of a script are its statements that declare one, each at its position. -/
theorem mem_componentsOf {program : List Tree} {c : ComponentDeclaration} :
    c ∈ componentsOf program ↔
      ∃ i t, program[i]? = some t ∧ t.isComponent = true ∧ c = .ofStatement i t := by
  unfold componentsOf
  simp only [List.mem_filterMap, Prod.exists, List.mem_zipIdx_iff_getElem?]
  constructor
  · rintro ⟨t, i, hAt, hSome⟩
    split at hSome
    · rename_i hComponent
      exact ⟨i, t, hAt, hComponent, (Option.some.inj hSome).symm⟩
    · simp at hSome
  · rintro ⟨i, t, hAt, hComponent, rfl⟩
    exact ⟨t, i, hAt, by rw [if_pos hComponent]⟩

section

variable {program : List Tree} {c c' : ComponentDeclaration} (hc : c ∈ componentsOf program)

include hc

/-- A component is found again at its position. -/
theorem getElem?_of_mem_componentsOf : program[c.position]? = some c.statement := by
  obtain ⟨i, t, hAt, -, rfl⟩ := mem_componentsOf.mp hc
  exact hAt

/-- Its function is the one that the statement gives. -/
theorem function_eq_of_mem_componentsOf : c.function = c.statement.functionInfo.1 := by
  obtain ⟨i, t, -, -, rfl⟩ := mem_componentsOf.mp hc
  rfl

/-- That is a function indeed. -/
theorem isFunction_of_mem_componentsOf {f : Tree} (hf : c.function = some f) :
    f.isFunction = true := by
  rw [function_eq_of_mem_componentsOf hc] at hf
  exact Tree.functionInfo_isFunction hf

/-- Its sites are those of the whole function. -/
theorem sites_of_mem_componentsOf {f : Tree} (hf : c.function = some f) :
    c.sites = f.macroSites := by
  obtain ⟨i, t, -, -, rfl⟩ := mem_componentsOf.mp hc
  have hInfo : t.functionInfo.1 = some f := hf
  simp only [ComponentDeclaration.ofStatement, hInfo, Option.elim_some]

/-- Its markup is that of the function. -/
theorem markup_of_mem_componentsOf {f : Tree} (hf : c.function = some f) :
    c.markup = f.markup? := by
  obtain ⟨i, t, -, -, rfl⟩ := mem_componentsOf.mp hc
  have hInfo : t.functionInfo.1 = some f := hf
  simp only [ComponentDeclaration.ofStatement, hInfo, Option.bind_some]

/-- A component is determined by the place of its statement. -/
theorem eq_of_position_eq (hc' : c' ∈ componentsOf program) (h : c.position = c'.position) :
    c = c' := by
  obtain ⟨i, t, hAt, -, rfl⟩ := mem_componentsOf.mp hc
  obtain ⟨j, u, hAt', -, rfl⟩ := mem_componentsOf.mp hc'
  obtain rfl : i = j := h
  rw [hAt] at hAt'
  rw [Option.some.inj hAt']

end

section

variable {program : List Tree} (hPlaced : ScriptPlaced program) {c c' : ComponentDeclaration}
  (hc : c ∈ componentsOf program)

include hPlaced hc

/-- In a script that is placed, so are the statements of components. -/
theorem wellPlaced_statement : c.statement.WellPlaced :=
  hPlaced.each _ (List.mem_of_getElem? (getElem?_of_mem_componentsOf hc))

/-- So are their functions. -/
theorem wellPlaced_function {f : Tree} (hFunction : c.function = some f) : f.WellPlaced := by
  rw [function_eq_of_mem_componentsOf hc] at hFunction
  exact (wellPlaced_statement hPlaced hc).of_mem (Tree.functionInfo_mem_preorder hFunction)

/-- A function does not reach beyond its statement. -/
theorem function_within {f : Tree} (hFunction : c.function = some f) :
    f.span.Within c.statement.span := by
  rw [function_eq_of_mem_componentsOf hc] at hFunction
  exact (wellPlaced_statement hPlaced hc).within (Tree.functionInfo_mem_preorder hFunction)

/-- A place in the statements of two components is a place in one component. -/
theorem eq_of_within_statements (hc' : c' ∈ componentsOf program) {span : Span}
    (hSpan : span.start < span.stop) (hWithin : span.Within c.statement.span)
    (hWithin' : span.Within c'.statement.span) : c = c' := by
  apply eq_of_position_eq hc hc'
  exact Tree.index_eq_of_within hPlaced.apart (getElem?_of_mem_componentsOf hc)
    (getElem?_of_mem_componentsOf hc') hSpan hWithin hWithin'

end

end ComponentAnalysis
