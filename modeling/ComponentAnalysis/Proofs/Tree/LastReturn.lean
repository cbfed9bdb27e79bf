import ComponentAnalysis.Proofs.Tree.Returned
import ComponentAnalysis.Proofs.Tree.WalkOrder
import Mathlib.Data.List.Induction
import Mathlib.Data.List.Pairwise

/-! Which return a function's markup template comes from. The walk over a function keeps the last
template that it meets right behind `return`, and in the text no such return comes after that one.
Templates are told apart by their places, so the return can be read off its template. -/
namespace ComponentAnalysis

section

variable {α β : Type} {r : α → α → Prop} {l : List α} {a : α}

/-- In a list whose items are related one to the next, the last item is the one that is related to
none. -/
theorem getLast?_eq_some_iff_of_pairwise (h : l.Pairwise r)
    (hAsymm : ∀ a ∈ l, ∀ b ∈ l, r a b → ¬ r b a) :
    l.getLast? = some a ↔ a ∈ l ∧ ∀ b ∈ l, ¬ r a b := by
  constructor
  · intro hLast
    obtain ⟨before, rfl⟩ := List.getLast?_eq_some_iff.mp hLast
    have ha : a ∈ before ++ [a] := List.mem_append_right before List.mem_cons_self
    refine ⟨ha, fun b hb hRel => ?_⟩
    rcases List.mem_append.mp hb with hBefore | hSame
    · have hOther : r b a := (List.pairwise_append.mp h).2.2 b hBefore a List.mem_cons_self
      exact hAsymm b hb a ha hOther hRel
    · obtain rfl := List.mem_singleton.mp hSame
      exact hAsymm b hb b hb hRel hRel
  · rintro ⟨ha, hNone⟩
    rcases List.eq_nil_or_concat l with rfl | ⟨before, last, rfl⟩
    · cases ha
    · rw [List.concat_eq_append] at ha hNone h ⊢
      rw [List.getLast?_concat]
      rcases List.mem_append.mp ha with hBefore | hSame
      · have hRel : r a last := (List.pairwise_append.mp h).2.2 a hBefore last List.mem_cons_self
        exact absurd hRel (hNone last (List.mem_append_right before List.mem_cons_self))
      · rw [List.mem_singleton.mp hSame]

/-- The last value of a partial function comes from the last item that has one. -/
theorem getLast?_filterMap (g : α → Option β) (l : List α) :
    (l.filterMap g).getLast? = (l.filter fun a => (g a).isSome).getLast?.bind g := by
  induction l using List.reverseRecOn with
  | nil => rfl
  | append_singleton l a ih =>
      rw [List.filterMap_append, List.filter_append]
      cases hValue : g a with
      | none => simpa [hValue] using ih
      | some b => simp [hValue]

end

namespace Tree

theorem size_le_sizeAll {t : Tree} {ts : List Tree} (h : t ∈ ts) : t.size ≤ sizeAll ts := by
  obtain ⟨before, after, rfl⟩ := List.append_of_mem h
  rw [sizeAll_append, sizeAll]
  omega

/-- No node below another is larger. -/
theorem size_le_of_mem_preorder {n t : Tree} (h : n ∈ t.preorder) : n.size ≤ t.size := by
  induction t with
  | node kind span children ih =>
      rcases mem_preorder.mp h with rfl | ⟨c, hc, hn⟩
      · exact Nat.le_refl _
      · have hChild := ih c hc hn
        have hAll := size_le_sizeAll hc
        rw [size]
        exact Nat.le_trans hChild (Nat.le_trans hAll (Nat.le_add_left _ _))

/-- A node strictly below another one is smaller, so no node stands below itself. -/
theorem Below.size_lt {n t : Tree} (h : n.Below t) : n.size < t.size := by
  obtain ⟨kind, span, children⟩ := t
  obtain ⟨c, hc : c ∈ children, hn⟩ := h
  have hBelow := size_le_of_mem_preorder hn
  have hAll := size_le_sizeAll hc
  rw [size]
  exact Nat.lt_of_le_of_lt (Nat.le_trans hBelow hAll) (by omega)

/-- Of two nodes that cover some text only one comes after the other. -/
theorem ComesAfter.asymm {m n : Tree} (h : m.ComesAfter n) (hm : m.WellPlaced) (hn : n.WellPlaced)
    (hCoversM : m.span.start < m.span.stop) (hCoversN : n.span.start < n.span.stop) :
    ¬ n.ComesAfter m := by
  intro h'
  have hStart := h.start_le hn
  have hStart' := h'.start_le hm
  rcases h with hBefore | hBelow
  · have hStop : n.span.stop ≤ m.span.start := hBefore
    omega
  · rcases h' with hBefore' | hBelow'
    · have hStop : m.span.stop ≤ n.span.start := hBefore'
      omega
    · exact Nat.lt_asymm hBelow.size_lt hBelow'.size_lt

/-- Only return statements give templates. -/
theorem kind_of_returnedMarkup? {n : Tree} (h : n.returnedMarkup?.isSome = true) :
    n.kind = .returnStatement := by
  by_contra hKind
  rw [returnedMarkup?_of_kind_ne hKind] at h
  cases h

/-- A return without a value gives none. -/
theorem returnedMarkup?_of_leaf {n : Tree} (h : n.children = []) : n.returnedMarkup? = none := by
  cases hMarkup : n.returnedMarkup? with
  | none => rfl
  | some markup =>
      obtain ⟨span, value, rest, -, -, rfl, -⟩ := returnedMarkup?_eq_some hMarkup
      cases h

/-- The template of a function is the one of a return that no other return of a template comes
after. -/
theorem markup?_eq_some_iff {f : Tree} (hLaid : f.LaidOut) {markup : Markup} :
    f.markup? = some markup ↔
      ∃ n ∈ f.preorder, n.returnedMarkup? = some markup ∧
        ∀ m ∈ f.preorder, m.returnedMarkup?.isSome = true → ¬ m.ComesAfter n := by
  have hOrder : (f.preorder.filter fun n => n.returnedMarkup?.isSome).Pairwise
      fun m n => n.ComesAfter m :=
    hLaid.pairwise_comesAfter fun n hLeaf => by
      rw [returnedMarkup?_of_leaf hLeaf, Option.isSome_none]
  have hAsymm : ∀ m ∈ f.preorder.filter fun n => n.returnedMarkup?.isSome,
      ∀ n ∈ f.preorder.filter fun n => n.returnedMarkup?.isSome,
        n.ComesAfter m → ¬ m.ComesAfter n := by
    intro m hm n hn hAfter
    obtain ⟨hm, hReturnM⟩ := List.mem_filter.mp hm
    obtain ⟨hn, hReturnN⟩ := List.mem_filter.mp hn
    have hCovers : ∀ t ∈ f.preorder, t.returnedMarkup?.isSome = true →
        t.span.start < t.span.stop := fun t ht hReturn =>
      hLaid.wellPlaced.covers ht (by rw [kind_of_returnedMarkup? hReturn]; rfl)
    exact hAfter.asymm (hLaid.wellPlaced.of_mem hn) (hLaid.wellPlaced.of_mem hm)
      (hCovers n hn hReturnN) (hCovers m hm hReturnM)
  rw [markup?, returnedMarkups, getLast?_filterMap, Option.bind_eq_some_iff]
  simp only [getLast?_eq_some_iff_of_pairwise hOrder hAsymm, List.mem_filter]
  constructor
  · rintro ⟨n, ⟨⟨hn, -⟩, hLast⟩, hMarkup⟩
    exact ⟨n, hn, hMarkup, fun m hm hReturn => hLast m ⟨hm, hReturn⟩⟩
  · rintro ⟨n, hn, hMarkup, hLast⟩
    refine ⟨n, ⟨⟨hn, ?_⟩, fun m ⟨hm, hReturn⟩ => hLast m hm hReturn⟩, hMarkup⟩
    rw [hMarkup, Option.isSome_some]

/-! A place in the text tells which return a template comes from. -/

/-- Around an expression in wrappers there is nothing but the wrappers. -/
theorem mem_preorder_unwrap_or {t p : Tree} (hWell : t.WellPlaced) (hp : p ∈ t.preorder)
    (hCovers : t.unwrap.span.start < t.unwrap.span.stop) (hWithin : t.unwrap.span.Within p.span) :
    p ∈ t.unwrap.preorder ∨ p.unwrap = t.unwrap := by
  induction t with
  | node kind span children ih =>
      rcases unwrap_eq_self_or (node kind span children) with
        hSelf | ⟨e, he, hSame, -, hOrdered⟩
      · rw [hSelf]
        exact Or.inl hp
      · rcases mem_preorder.mp hp with rfl | ⟨c, hc, hp⟩
        · exact Or.inr rfl
        · rw [hSame] at hCovers hWithin ⊢
          have hInside : e.unwrap.span.Within e.span :=
            (hWell.of_child he).within e.unwrap_mem_preorder
          have hAround : p.span.Within c.span := (hWell.of_child hc).within hp
          obtain rfl : c = e := eq_of_within (hWell.placed.apart hOrdered) hc he hCovers
            (hWithin.trans hAround) hInside
          exact ih c he (hWell.of_child he) hp hCovers hWithin

section

variable {f n p template template' : Tree} {place : Span}

/-- The place of a returned template is inside its return. -/
theorem ReturnsTemplate.place_within (h : n.ReturnsTemplate place template) (hWell : n.WellPlaced) :
    place.start < place.stop ∧ place.Within n.span := by
  obtain @⟨span, value, tag, template, rest, hTagged, hTag⟩ := h
  have hMem : value.unwrap ∈ (node .returnStatement span (value :: rest)).preorder :=
    mem_preorder_of_child List.mem_cons_self value.unwrap_mem_preorder
  refine ⟨hWell.covers hMem ?_, hWell.within hMem⟩
  rw [kind_of_tagged? hTagged]
  rfl

/-- The template itself is inside that place. -/
theorem ReturnsTemplate.template_within (h : n.ReturnsTemplate place template)
    (hWell : n.WellPlaced) : template.WellPlaced ∧ template.span.Within place := by
  obtain @⟨span, value, tag, template, rest, hTagged, hTag⟩ := h
  have hWhole : value.unwrap.WellPlaced :=
    hWell.of_mem (mem_preorder_of_child List.mem_cons_self value.unwrap_mem_preorder)
  obtain ⟨-, hTemplate, -, -⟩ := hWhole.tag_before hTagged hTag
  exact ⟨hWhole.of_child hTemplate, hWhole.placed.within template hTemplate⟩

/-- Inside a return of a template there is no other return around the template. -/
theorem ReturnsTemplate.not_below (h : n.ReturnsTemplate place template) (hWell : n.WellPlaced)
    (hText : template.span.start < place.stop) (hKind : p.kind = .returnStatement)
    (hPlace : place.Within p.span) : ¬ p.Below n := by
  have hCovers := (h.place_within hWell).1
  rintro ⟨c, hc, hp⟩
  obtain @⟨span, value, tag, template, rest, hTagged, hTag⟩ := h
  have hMem : value ∈ (node .returnStatement span (value :: rest)).children := List.mem_cons_self
  have hValue := hWell.of_child hMem
  have hWhole := hValue.of_mem value.unwrap_mem_preorder
  have hWholeKind := kind_of_tagged? hTagged
  obtain rfl : c = value := eq_of_within (hWell.placed.apart rfl) hc hMem hCovers
    (hPlace.trans ((hWell.of_child hc).within hp)) (hValue.within value.unwrap_mem_preorder)
  have hNotSame : p.unwrap ≠ c.unwrap := by
    obtain ⟨kind, pSpan, pChildren⟩ := p
    obtain rfl : kind = .returnStatement := hKind
    intro hSame
    rw [← hSame] at hWholeKind
    cases hWholeKind
  have hIn := (mem_preorder_unwrap_or hValue hp hCovers hPlace).resolve_right hNotSame
  rcases mem_preorder.mp hIn with rfl | ⟨d, hd, hp⟩
  · rw [hWholeKind] at hKind
    cases hKind
  · -- The part around the template would be its tag, but the template stands behind that.
    obtain ⟨hTagMem, -, hTagText, hBehind⟩ := hWhole.tag_before hTagged hTag
    have hAll : c.unwrap.span.Within d.span := hPlace.trans ((hWhole.of_child hd).within hp)
    have hApart : c.unwrap.children.Pairwise Before := hWhole.placed.apart (by rw [hWholeKind]; rfl)
    obtain rfl : d = tag := eq_of_within hApart hd hTagMem hTagText
      ((hWhole.placed.within tag hTagMem).trans hAll) (Span.Within.refl _)
    have hStop : c.unwrap.span.stop ≤ d.span.stop := hAll.2
    have hStart : d.span.stop ≤ template.span.start := hBehind
    omega

/-- A return does not come after another one whose template is at the same place. -/
theorem ReturnsTemplate.not_comesAfter (h : n.ReturnsTemplate place template)
    (h' : p.ReturnsTemplate place template') (hn : n.WellPlaced) (hp : p.WellPlaced)
    (hText : template.span.start < place.stop) : ¬ p.ComesAfter n := by
  obtain ⟨hCovers, hWithin⟩ := h.place_within hn
  obtain ⟨-, hWithin'⟩ := h'.place_within hp
  rintro (hBefore | hBelow)
  · have hStop : n.span.stop ≤ p.span.start := hBefore
    have hLow := hWithin'.1
    have hHigh := hWithin.2
    omega
  · exact h.not_below hn hText h'.kind_eq hWithin' hBelow

theorem ReturnsTemplate.children_ne_nil (h : n.ReturnsTemplate place template) :
    n.children ≠ [] := by
  cases h
  exact List.cons_ne_nil _ _

/-- Two returns of a template at one place are one return. -/
theorem ReturnsTemplate.eq_of_place (hLaid : f.LaidOut) (hn : n ∈ f.preorder) (hp : p ∈ f.preorder)
    (h : n.ReturnsTemplate place template) (h' : p.ReturnsTemplate place template')
    (hText : template.span.start < place.stop) (hText' : template'.span.start < place.stop) :
    n = p := by
  have hOrder := (hLaid.pairwise_comesAfter
    (p := fun t => t.kind = .returnStatement && !t.children.isEmpty)
    fun t hLeaf => by simp [hLeaf]).imp fun {m n : Tree} hAfter =>
      (Or.inr hAfter : m.ComesAfter n ∨ n.ComesAfter m)
  have : Std.Symm fun m n : Tree => m.ComesAfter n ∨ n.ComesAfter m := ⟨fun _ _ => Or.symm⟩
  have hWell := hLaid.wellPlaced
  by_contra hNe
  rcases hOrder.forall
      (List.mem_filter.mpr ⟨hn, by simp [h.kind_eq, h.children_ne_nil]⟩)
      (List.mem_filter.mpr ⟨hp, by simp [h'.kind_eq, h'.children_ne_nil]⟩) hNe with hAfter | hAfter
  · exact h'.not_comesAfter h (hWell.of_mem hp) (hWell.of_mem hn) hText' hAfter
  · exact h.not_comesAfter h' (hWell.of_mem hn) (hWell.of_mem hp) hText hAfter

end

end Tree

section

variable {program : List Tree} (hOrdered : ScriptOrdered program) {c : ComponentDeclaration}
  (hc : c ∈ componentsOf program) {f : Tree} (hFunction : c.function = some f)

include hOrdered hc hFunction

/-- In a script in order, the functions of components are so, too. -/
theorem laidOut_function : f.LaidOut := by
  have hStatement := List.mem_of_getElem? (getElem?_of_mem_componentsOf hc)
  rw [function_eq_of_mem_componentsOf hc] at hFunction
  have hIn := Tree.functionInfo_mem_preorder hFunction
  exact ⟨(hOrdered.each _ hStatement).of_mem hIn,
    fun n hn => hOrdered.walk _ hStatement n (Tree.mem_preorder_trans hn hIn)⟩

/-- The template of a component is the one of its last return of a template. -/
theorem markup_eq_some_iff {markup : Markup} :
    c.markup = some markup ↔
      ∃ n ∈ f.preorder, n.returnedMarkup? = some markup ∧
        ∀ m ∈ f.preorder, m.returnedMarkup?.isSome = true → ¬ m.ComesAfter n := by
  rw [markup_of_mem_componentsOf hc hFunction]
  exact Tree.markup?_eq_some_iff (laidOut_function hOrdered hc hFunction)

end

end ComponentAnalysis
