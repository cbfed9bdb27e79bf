import ComponentAnalysis.Proofs.Component.Declaration

/-! The markup templates that a function returns, and where they stand. The place of a template
tells which function it is in. -/
namespace ComponentAnalysis.Tree

/-- A function returns a markup template, possibly in parentheses and type wrappers. -/
def Returns (f : Tree) (content : Span) : Prop :=
  ∃ span value rest tag template,
    node .returnStatement span (value :: rest) ∈ f.preorder ∧
      value.unwrap.tagged? = some (tag, template) ∧ tag.referenceName? = some markupTag ∧
      content = template.span.inner

theorem tagged?_eq_some {t tag template : Tree} (h : t.tagged? = some (tag, template)) :
    ∃ span rest, t = node .taggedTemplate span (tag :: rest) ∧ template ∈ rest := by
  fun_cases tagged? t with
  | case1 span first rest =>
      obtain ⟨last, hLast, hPair⟩ := Option.map_eq_some_iff.mp h
      cases hPair
      exact ⟨span, rest, rfl, List.mem_of_getLast? hLast⟩
  | case2 => simp_all [tagged?]

theorem kind_of_tagged? {t tag template : Tree} (h : t.tagged? = some (tag, template)) :
    t.kind = .taggedTemplate := by
  obtain ⟨span, rest, rfl, -⟩ := tagged?_eq_some h
  rfl

theorem referenceName?_eq_some {t : Tree} {name : String} (h : t.referenceName? = some name) :
    ∃ span children, t = node (.reference name) span children := by
  fun_cases referenceName? t with
  | case1 name span children =>
      cases h
      exact ⟨span, children, rfl⟩
  | case2 => simp_all [referenceName?]

/-- Templates returned below a node are found from the node. -/
theorem mem_returnedMarkups_of_mem_preorder {f t : Tree} {markup : Markup}
    (h : markup ∈ f.returnedMarkups) (hf : f ∈ t.preorder) : markup ∈ t.returnedMarkups := by
  obtain ⟨n, hn, hMarkup⟩ := List.mem_filterMap.mp h
  exact List.mem_filterMap.mpr ⟨n, mem_preorder_trans hn hf, hMarkup⟩

/-- A return statement returns its value if that is a template with the markup tag. -/
theorem returnedMarkup?_returnStatement (span : Span) (value : Tree) (rest : List Tree) :
    (node .returnStatement span (value :: rest)).returnedMarkup? =
      match value.tagged? with
      | some (tag, template) =>
        if tag.referenceName? = some markupTag then
          some ⟨value.span, template.span.inner, template.isInterpolated⟩
        else none
      | none => none := by
  rw [returnedMarkup?, isMarkup]
  cases value.tagged? with
  | none => rfl
  | some parts => simp only [decide_eq_true_eq, Option.map_some]

/-- A node that returns markup is a return statement, and its value is the template itself. -/
theorem returnedMarkup?_eq_some {n : Tree} {markup : Markup} (h : n.returnedMarkup? = some markup) :
    ∃ span value rest tag template, n = node .returnStatement span (value :: rest) ∧
      value.tagged? = some (tag, template) ∧ tag.referenceName? = some markupTag ∧
      markup = ⟨value.span, template.span.inner, template.isInterpolated⟩ := by
  fun_cases returnedMarkup? n with
  | case1 span value rest =>
      rw [returnedMarkup?_returnStatement] at h
      split at h
      · rename_i tag template hTagged
        obtain ⟨hTag, hMarkup⟩ := Option.ite_none_right_eq_some.mp h
        exact ⟨span, value, rest, tag, template, rfl, hTagged, hTag, (Option.some.inj hMarkup).symm⟩
      · cases h
  | _ => simp_all [returnedMarkup?]

theorem returnedMarkup?_of_kind_ne {t : Tree} (h : t.kind ≠ .returnStatement) :
    t.returnedMarkup? = none := by
  cases hMarkup : t.returnedMarkup? with
  | none => rfl
  | some markup =>
      obtain ⟨span, value, rest, -, -, rfl, -⟩ := returnedMarkup?_eq_some hMarkup
      exact absurd rfl h

theorem unwrap_of_tagged? {t tag template : Tree} (h : t.tagged? = some (tag, template)) :
    t.unwrap = t := by
  obtain ⟨span, rest, rfl, -⟩ := tagged?_eq_some h
  rfl

/-- A statement returns a markup template, possibly in parentheses and type wrappers. -/
inductive ReturnsTemplate : Tree → Span → Tree → Prop where
  | intro {span : Span} {value tag template : Tree} {rest : List Tree}
      (hValue : value.unwrap.tagged? = some (tag, template))
      (hTag : tag.referenceName? = some markupTag) :
      ReturnsTemplate (node .returnStatement span (value :: rest)) value.unwrap.span template

/-- A statement gives the template that it returns, with its place. -/
theorem exists_returnsTemplate {n : Tree} {markup : Markup} (h : n.returnedMarkup? = some markup) :
    ∃ place template, n.ReturnsTemplate place template ∧
      markup = ⟨place, template.span.inner, template.isInterpolated⟩ := by
  obtain ⟨span, value, rest, tag, template, rfl, hTagged, hTag, rfl⟩ := returnedMarkup?_eq_some h
  have hUnwrap := unwrap_of_tagged? hTagged
  refine ⟨value.unwrap.span, template, ?_, by rw [hUnwrap]⟩
  exact .intro (by rwa [hUnwrap]) hTag

theorem ReturnsTemplate.kind_eq {n template : Tree} {place : Span}
    (h : n.ReturnsTemplate place template) : n.kind = .returnStatement := by
  cases h
  rfl

/-- If nothing is around a returned template, the analysis finds it. -/
theorem ReturnsTemplate.returnedMarkup?_eq {n template : Tree} {place : Span}
    (h : n.ReturnsTemplate place template) (hBare : n.returnedMarkup?.isSome = true) :
    n.returnedMarkup? = some ⟨place, template.span.inner, template.isInterpolated⟩ := by
  obtain ⟨markup, hMarkup⟩ := Option.isSome_iff_exists.mp hBare
  obtain ⟨span, value, rest, tag, template', rfl, hTagged, -, rfl⟩ :=
    returnedMarkup?_eq_some hMarkup
  obtain ⟨hValue, -⟩ := h
  rw [unwrap_of_tagged? hTagged] at hValue ⊢
  cases hTagged.symm.trans hValue
  exact hMarkup

/-- A returned template with nothing around it is returned. -/
theorem returns_of_mem_returnedMarkups {f : Tree} {markup : Markup}
    (h : markup ∈ f.returnedMarkups) : f.Returns markup.content := by
  obtain ⟨n, hn, hMarkup⟩ := List.mem_filterMap.mp h
  obtain ⟨span, value, rest, tag, template, rfl, hTagged, hTag, rfl⟩ :=
    returnedMarkup?_eq_some hMarkup
  exact ⟨span, value, rest, tag, template, hn, by rwa [unwrap_of_tagged? hTagged], hTag, rfl⟩

/-- The text right before the opening backtick of a template, of which the content is given. Unlike
the content it is never empty. -/
def beforeTemplate (content : Span) : Span := ⟨content.start - 2, content.start - 1⟩

/-- The tag of a markup template covers some text, and the template stands behind it. -/
theorem WellPlaced.tag_before {t tag template : Tree} (hWell : t.WellPlaced)
    (hTagged : t.tagged? = some (tag, template)) (hTag : tag.referenceName? = some markupTag) :
    tag ∈ t.children ∧ template ∈ t.children ∧ tag.span.start < tag.span.stop ∧
      tag.Before template := by
  obtain ⟨place, others, rfl, hTemplate⟩ := tagged?_eq_some hTagged
  obtain ⟨tagSpan, tagChildren, rfl⟩ := referenceName?_eq_some hTag
  exact ⟨List.mem_cons_self, List.mem_cons_of_mem _ hTemplate,
    hWell.covers (mem_preorder_of_mem_children List.mem_cons_self) rfl,
    (List.pairwise_cons.mp (hWell.placed.apart rfl)).1 template hTemplate⟩

/-- A function has the tag of each template that it returns. -/
theorem Returns.within {f : Tree} {content : Span} (h : f.Returns content)
    (hPlaced : f.WellPlaced) :
    (beforeTemplate content).start < (beforeTemplate content).stop ∧
      (beforeTemplate content).Within f.span := by
  obtain ⟨span, value, rest, tag, template, hReturn, hTagged, hTag, rfl⟩ := h
  have hValue : value.unwrap ∈ f.preorder :=
    mem_preorder_trans value.unwrap_mem_preorder
      (mem_preorder_trans (mem_preorder_of_mem_children List.mem_cons_self) hReturn)
  have hWhole := hPlaced.of_mem hValue
  have hInside : value.unwrap.span.Within f.span := hPlaced.within hValue
  obtain ⟨hTagMem, hTemplate, hTagText, hBefore⟩ := hWhole.tag_before hTagged hTag
  have hTagInside : tag.span.Within value.unwrap.span := hWhole.placed.within tag hTagMem
  have hTemplateInside : template.span.Within value.unwrap.span :=
    hWhole.placed.within template hTemplate
  have hOrdered : template.span.start ≤ template.span.stop :=
    (hWhole.of_child hTemplate).placed.ordered
  simp only [beforeTemplate, Span.Within, Span.inner, Before] at *
  omega

end ComponentAnalysis.Tree
