import ComponentAnalysis.Proofs.Tree.LastReturn

/-! The templates that a component returns itself and those that functions nested in it return. The
analysis takes the last of them all, so a nested function behind the last return of the component,
or inside the template itself, gives the component its own template. -/
namespace ComponentAnalysis

/-- Whether nodes of a kind are functions, or classes, which hold functions: what is returned inside
is not returned by a function around them. -/
def Kind.ownsReturns : Kind → Bool
  | function _ | arrow | classDefinition | classExpression => true
  | _ => false

namespace Tree

mutual

/-- A node and the nodes below it, apart from those inside nested functions and classes. -/
def ownPreorder : Tree → List Tree
  | node k s cs => node k s cs :: if k.ownsReturns then [] else ownPreorderAll cs

def ownPreorderAll : List Tree → List Tree
  | [] => []
  | t :: ts => ownPreorder t ++ ownPreorderAll ts

end

/-- The nodes of a function outside the functions and classes that are nested in it. -/
def ownNodes (f : Tree) : List Tree := ownPreorderAll f.children

/-- A node stands inside a function or class that is nested in a function. -/
def IsNested (f n : Tree) : Prop := ∃ g, g.Below f ∧ g.kind.ownsReturns = true ∧ n.Below g

/-- The own nodes of several trees are those of each. -/
theorem mem_ownPreorderAll {n : Tree} {ts : List Tree} :
    n ∈ ownPreorderAll ts ↔ ∃ t ∈ ts, n ∈ t.ownPreorder := by
  induction ts with
  | nil => simp [ownPreorderAll]
  | cons t ts ih => simp [ownPreorderAll, ih]

/-- Below a nested function or class no node is an own one. -/
theorem mem_ownPreorder {n t : Tree} :
    n ∈ t.ownPreorder ↔
      n = t ∨ t.kind.ownsReturns = false ∧ ∃ c ∈ t.children, n ∈ c.ownPreorder := by
  obtain ⟨kind, span, children⟩ := t
  rw [ownPreorder, List.mem_cons]
  change _ ↔ _ ∨ kind.ownsReturns = false ∧ ∃ c ∈ children, _
  cases kind.ownsReturns <;> simp [mem_ownPreorderAll]

theorem mem_preorder_of_ownPreorder {n t : Tree} (h : n ∈ t.ownPreorder) : n ∈ t.preorder := by
  induction t with
  | node kind span children ih =>
      rcases mem_ownPreorder.mp h with rfl | ⟨-, c, hc, hn⟩
      · exact mem_preorder_self _
      · exact mem_preorder_of_child hc (ih c hc hn)

/-- Every node is an own one, or it stands inside something nested. -/
theorem ownPreorder_or_nested {n t : Tree} (h : n ∈ t.preorder) :
    n ∈ t.ownPreorder ∨ ∃ g ∈ t.preorder, g.kind.ownsReturns = true ∧ n.Below g := by
  induction t with
  | node kind span children ih =>
      rcases mem_preorder.mp h with rfl | ⟨c, hc, hn⟩
      · exact Or.inl (mem_ownPreorder.mpr (Or.inl rfl))
      · cases hOwns : kind.ownsReturns with
        | true => exact Or.inr ⟨_, mem_preorder_self _, hOwns, c, hc, hn⟩
        | false =>
            rcases ih c hc hn with hOwn | ⟨g, hg, hOwnsG, hBelow⟩
            · exact Or.inl (mem_ownPreorder.mpr (Or.inr ⟨hOwns, c, hc, hOwn⟩))
            · exact Or.inr ⟨g, mem_preorder_of_child hc hg, hOwnsG, hBelow⟩

/-- The own nodes of a function stand below it. -/
theorem below_of_mem_ownNodes {f n : Tree} (h : n ∈ f.ownNodes) : n.Below f := by
  obtain ⟨c, hc, hn⟩ := mem_ownPreorderAll.mp h
  exact ⟨c, hc, mem_preorder_of_ownPreorder hn⟩

/-- So do those of the functions nested in it. -/
theorem IsNested.below {f n : Tree} (h : f.IsNested n) : n.Below f := by
  obtain ⟨g, ⟨c, hc, hg⟩, -, hn⟩ := h
  exact ⟨c, hc, mem_preorder_trans hn.mem_preorder hg⟩

/-- Each node below a function is one of its own or stands in a nested function. -/
theorem own_or_nested {f n : Tree} (h : n.Below f) : n ∈ f.ownNodes ∨ f.IsNested n := by
  obtain ⟨c, hc, hn⟩ := h
  rcases ownPreorder_or_nested hn with hOwn | ⟨g, hg, hOwns, hBelow⟩
  · exact Or.inl (mem_ownPreorderAll.mpr ⟨c, hc, hOwn⟩)
  · exact Or.inr ⟨g, ⟨c, hc, hg⟩, hOwns, hBelow⟩

end Tree

section

variable {program : List Tree} {c : ComponentDeclaration} {f : Tree}

/-- The function of a component is no return itself. -/
theorem below_of_returnedMarkup? (hc : c ∈ componentsOf program) (hFunction : c.function = some f)
    {n : Tree} (hn : n ∈ f.preorder) (hReturn : n.returnedMarkup?.isSome = true) : n.Below f := by
  rcases Tree.mem_preorder.mp hn with rfl | hBelow
  · rw [function_eq_of_mem_componentsOf hc] at hFunction
    have hKind := Tree.functionInfo_isFunction hFunction
    rw [Tree.isFunction, Tree.kind_of_returnedMarkup? hReturn] at hKind
    cases hKind
  · exact hBelow

/-- A template that a component returns itself is the one that the analysis finds if and only if
nothing is around it, it is the last such template of the component, and no function nested in the
component returns one behind it or inside it. -/
theorem markup_eq_own_iff (hOrdered : ScriptOrdered program) (hc : c ∈ componentsOf program)
    (hFunction : c.function = some f) {n template : Tree} {place : Span} (hOwn : n ∈ f.ownNodes)
    (hReturns : n.ReturnsTemplate place template) (hTemplate : template.kind = .template) :
    c.markup = some ⟨place, template.span.inner, template.isInterpolated⟩ ↔
      n.returnedMarkup?.isSome = true ∧
        (∀ m ∈ f.ownNodes, m.returnedMarkup?.isSome = true → ¬ m.ComesAfter n) ∧
        ∀ m, f.IsNested m → m.returnedMarkup?.isSome = true → ¬ m.ComesAfter n := by
  have hLaid := laidOut_function hOrdered hc hFunction
  have hn := (Tree.below_of_mem_ownNodes hOwn).mem_preorder
  rw [markup_eq_some_iff hOrdered hc hFunction]
  constructor
  · rintro ⟨p, hp, hMarkup, hLast⟩
    obtain ⟨place', template', hReturns', hSame⟩ := Tree.exists_returnsTemplate hMarkup
    obtain ⟨rfl, hContent, -⟩ := Markup.mk.inj hSame
    have hText : template.span.start < place.stop := by
      obtain ⟨hWell, hWithin⟩ := hReturns.template_within (hLaid.wellPlaced.of_mem hn)
      have hCovers := hWell.placed.covers (by rw [hTemplate]; rfl)
      exact Nat.lt_of_lt_of_le hCovers hWithin.2
    have hText' : template'.span.start < place.stop := by
      have hStart := congrArg Span.start hContent
      simp only [Span.inner] at hStart
      omega
    obtain rfl := hReturns.eq_of_place hLaid hn hp hReturns' hText hText'
    refine ⟨by rw [hMarkup, Option.isSome_some], fun m hm => ?_, fun m hm => ?_⟩
    · exact hLast m (Tree.below_of_mem_ownNodes hm).mem_preorder
    · exact hLast m hm.below.mem_preorder
  · rintro ⟨hBare, hNoOwn, hNoNested⟩
    refine ⟨n, hn, hReturns.returnedMarkup?_eq hBare, fun m hm hReturn => ?_⟩
    rcases Tree.own_or_nested (below_of_returnedMarkup? hc hFunction hm hReturn) with hOwn | hNested
    · exact hNoOwn m hOwn hReturn
    · exact hNoNested m hNested hReturn

end

/-- The return of a template of four characters. -/
def templateReturn (start : Nat) (text : String) : Tree :=
  .node .returnStatement ⟨start, start + 17⟩
    [.node .taggedTemplate ⟨start + 7, start + 17⟩
      [.node (.reference "vine") ⟨start + 7, start + 11⟩ [],
        .node .template ⟨start + 11, start + 17⟩
          [.node (.templateText (some text)) ⟨start + 12, start + 16⟩ []]]]

/-- A function that returns a template. -/
def rowFunction (start : Nat) : Tree :=
  .node (.function .declaration) ⟨start, start + 36⟩
    [.node (.binding "row") ⟨start + 9, start + 12⟩ [],
      .node .parameters ⟨start + 12, start + 14⟩ [],
      .node .functionBody ⟨start + 15, start + 36⟩ [templateReturn (start + 17) "<b/>"]]

def functionOf (statements : List Tree) : Tree :=
  .node (.function .declaration) ⟨0, 75⟩
    [.node (.binding "A") ⟨9, 10⟩ [],
      .node .parameters ⟨10, 12⟩ [],
      .node .functionBody ⟨13, 75⟩ statements]

/-- A function with a template of its own, behind a function that is nested in it. -/
def rowFirst : Tree := functionOf [rowFunction 17, templateReturn 56 "<a/>"]

/-- A function with a template of its own, before a function that is nested in it. -/
def rowLast : Tree := functionOf [templateReturn 17 "<a/>", rowFunction 37]

/-- The template behind a nested function is the last one. -/
theorem markup_eq_own_rowFirst :
    ScriptOrdered [rowFirst] ∧ templateReturn 56 "<a/>" ∈ rowFirst.ownNodes ∧
      (ComponentDeclaration.ofStatement 0 rowFirst).markup = some ⟨⟨63, 73⟩, ⟨68, 72⟩, false⟩ ∧
      (templateReturn 56 "<a/>").returnedMarkup?.isSome = true ∧
      (∀ m ∈ rowFirst.ownNodes, m.returnedMarkup?.isSome = true →
        ¬ m.ComesAfter (templateReturn 56 "<a/>")) ∧
      ∀ m, rowFirst.IsNested m → m.returnedMarkup?.isSome = true →
        ¬ m.ComesAfter (templateReturn 56 "<a/>") := by
  have hOrdered : ScriptOrdered [rowFirst] := by decide
  have hOwn : templateReturn 56 "<a/>" ∈ rowFirst.ownNodes := by
    have hReturns : rowFirst.ownNodes.filter (fun n => n.returnedMarkup?.isSome) =
      [templateReturn 56 "<a/>"] := rfl
    exact List.mem_of_mem_filter (hReturns ▸ List.mem_singleton_self _)
  have hMarkup : (ComponentDeclaration.ofStatement 0 rowFirst).markup =
      some ⟨⟨63, 73⟩, ⟨68, 72⟩, false⟩ := by decide
  exact ⟨hOrdered, hOwn, hMarkup,
    (markup_eq_own_iff hOrdered (mem_componentsOf.mpr ⟨0, rowFirst, rfl, by decide, rfl⟩) rfl hOwn
      (.intro rfl rfl) rfl).mp hMarkup⟩

/-- The component has one template of its own, and the analysis takes that of the nested function
behind it. -/
theorem not_markup_eq_own_rowLast :
    ¬ ∀ c ∈ componentsOf [rowLast], ∀ f, c.function = some f → ∀ n ∈ f.ownNodes, ∀ markup,
      n.returnedMarkup? = some markup →
        (∀ m ∈ f.ownNodes, m.returnedMarkup?.isSome = true → ¬ m.ComesAfter n) →
          c.markup = some markup := by
  intro h
  have hReturns : rowLast.ownNodes.filter (fun n => n.returnedMarkup?.isSome) =
    [templateReturn 17 "<a/>"] := rfl
  have hOwn : templateReturn 17 "<a/>" ∈ rowLast.ownNodes :=
    List.mem_of_mem_filter (hReturns ▸ List.mem_singleton_self _)
  have hLast : ∀ m ∈ rowLast.ownNodes, m.returnedMarkup?.isSome = true →
      ¬ m.ComesAfter (templateReturn 17 "<a/>") := by
    intro m hm hReturn
    have hOnly : m ∈ rowLast.ownNodes.filter fun n => n.returnedMarkup?.isSome :=
      List.mem_filter.mpr ⟨hm, hReturn⟩
    rw [hReturns, List.mem_singleton] at hOnly
    rw [hOnly]
    rintro (hBefore | hBelow)
    · exact absurd hBefore (by decide)
    · exact Nat.lt_irrefl _ hBelow.size_lt
  have hMarkup := h (.ofStatement 0 rowLast)
    (mem_componentsOf.mpr ⟨0, rowLast, rfl, by decide, rfl⟩) rowLast rfl _ hOwn
    ⟨⟨24, 34⟩, ⟨29, 33⟩, false⟩ rfl hLast
  exact absurd hMarkup (by decide)

end ComponentAnalysis
