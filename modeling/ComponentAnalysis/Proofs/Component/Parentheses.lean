import ComponentAnalysis.Proofs.Tree.Returned
import ComponentAnalysis.Proofs.Tree.Wrappers

/-! Parentheses around returned values. The analysis looks for markup templates right behind
`return`, so it finds none in parentheses. A script with more parentheses has the same components
with the same templates just as long as these templates stay without. -/
namespace ComponentAnalysis

/-- Two templates are the same up to their places. -/
structure Markup.Moved (moved : Span → Span) (markup markup' : Markup) : Prop where
  span : markup'.span = moved markup.span
  content : ∃ place, markup.content = place.inner ∧ markup'.content = (moved place).inner
  isInterpolated : markup'.isInterpolated = markup.isInterpolated

/-- The returned templates of a node are its own and those below it. -/
theorem Tree.returnedMarkups_eq (t : Tree) :
    t.returnedMarkups = t.returnedMarkup?.toList ++ t.children.flatMap returnedMarkups := by
  rw [returnedMarkups, preorder_eq, List.filterMap_cons, List.filterMap_flatMap]
  cases t.returnedMarkup? <;> rfl

section

variable {α : Type} {R : α → α → Prop}

/-- Related options are related lists. -/
theorem forall₂_toList {o o' : Option α} (h : Option.Rel R o o') :
    List.Forall₂ R o.toList o'.toList := by
  cases h with
  | none => exact .nil
  | some hRel => exact .cons hRel .nil

/-- Lists that are related item by item have related last items. -/
theorem rel_getLast? {l l' : List α} (h : List.Forall₂ R l l') :
    Option.Rel R l.getLast? l'.getLast? := by
  rw [List.getLast?_eq_head?_reverse, List.getLast?_eq_head?_reverse]
  have hReverse := List.forall₂_reverse_iff.mpr h
  generalize l.reverse = m, l'.reverse = m' at hReverse
  cases hReverse with
  | nil => exact .none
  | cons hRel _ => exact .some hRel

end

namespace Rewrapping

/-- Writes parentheses around the values that a script returns, by their new places. -/
def parenthesizing (moved : Span → Span) (outer : Span → List Span) : Rewrapping where
  moved := moved
  initializer _ := []
  argument _ := []
  returned span := (outer span).map .parentheses

/-- A script that is written anew has the same components, and for each function the same template
or none as before. -/
structure KeepsTemplates (r : Rewrapping) (program : List Tree) : Prop where
  components : ∀ t ∈ program, (r.apply t).isComponent = t.isComponent
  templates : ∀ t ∈ program, ∀ f, t.functionInfo.1 = some f →
    Option.Rel (Markup.Moved r.moved) f.markup? (r.apply f).markup?

/-- A tagged template in any layers is none. -/
theorem tagged?_dressed (layers : Span → List Wrapper) (part : Tree) :
    (dressed layers part).tagged? = if layers part.span = [] then part.tagged? else none := by
  unfold dressed
  by_cases hValue : part.kind.isValue
  · rw [if_pos hValue]
    cases layers part.span with
    | nil => rfl
    | cons layer layers => cases layer <;> rfl
  · have hNone : part.tagged? = none := by
      cases hTagged : part.tagged? with
      | none => rfl
      | some parts =>
          obtain ⟨span, rest, rfl, -⟩ := Tree.tagged?_eq_some hTagged
          exact absurd rfl hValue
    rw [if_neg hValue, hNone, ite_self]

section

variable (moved : Span → Span) (outer : Span → List Span)

/-- Layers hold no returned templates besides those of the part. -/
theorem returnedMarkups_dressed (part : Tree) :
    (dressed (parenthesizing moved outer).returned part).returnedMarkups =
      part.returnedMarkups := by
  unfold dressed
  split
  · change (Tree.wrap ((outer part.span).map .parentheses) part).returnedMarkups = _
    induction outer part.span with
    | nil => rfl
    | cons span spans ih =>
        rw [List.map_cons, Tree.wrap_cons, Tree.returnedMarkups_eq, Wrapper.around,
          Tree.children, List.flatMap_singleton, ih]
        rfl
  · rfl

/-- So dressing the parts of a node leaves the templates below them alone. -/
theorem flatMap_returnedMarkups_dress (kind : Kind) (parts : List Tree) :
    ((parenthesizing moved outer).dress kind parts).flatMap Tree.returnedMarkups =
      parts.flatMap Tree.returnedMarkups := by
  have hNone : dressed (fun _ => []) = id := funext dressed_nil
  unfold dress
  split
  · simp [parenthesizing, hNone]
  · simp [parenthesizing, hNone]
  · rw [List.flatMap_map]
    simp only [returnedMarkups_dressed]
  · rfl

/-- A template is found again where it stood if no parentheses are written around it. -/
theorem rel_returnedMarkup?_apply (t : Tree) :
    Option.Rel (Markup.Moved moved)
      (t.returnedMarkup?.filter fun markup => outer (moved markup.span) = [])
      ((parenthesizing moved outer).apply t).returnedMarkup? := by
  by_cases hKind : t.kind = .returnStatement
  · obtain ⟨kind, span, _ | ⟨value, rest⟩⟩ := t
    · obtain rfl : kind = .returnStatement := hKind
      exact .none
    · obtain rfl : kind = .returnStatement := hKind
      have hLayers : (parenthesizing moved outer).returned
            ((parenthesizing moved outer).apply value).span = [] ↔
          outer (moved value.span) = [] := by
        rw [span_apply]
        exact List.map_eq_nil_iff
      simp only [apply_node, dress, List.map_cons, Tree.returnedMarkup?_returnStatement,
        tagged?_dressed, hLayers]
      by_cases hBare : outer (moved value.span) = []
      · rw [if_pos hBare, tagged?_apply, dressed_eq_self (hLayers.mpr hBare)]
        cases value.tagged? with
        | none => exact .none
        | some parts =>
            simp only [Option.map_some, referenceName?_apply, isInterpolated_apply, span_apply]
            split
            · rw [Option.filter_some_pos (by simpa using hBare)]
              exact .some ⟨rfl, ⟨_, rfl, rfl⟩, rfl⟩
            · exact .none
      · rw [if_neg hBare]
        cases value.tagged? with
        | none => exact .none
        | some parts =>
            simp only
            split
            · rw [Option.filter_some_neg (by simpa using hBare)]
              exact .none
            · exact .none
  · rw [Tree.returnedMarkup?_of_kind_ne hKind,
      Tree.returnedMarkup?_of_kind_ne (by rwa [kind_apply])]
    exact .none

/-- The templates without parentheses around them are found again, in their order. -/
theorem forall₂_returnedMarkups_apply (t : Tree) :
    List.Forall₂ (Markup.Moved moved)
      (t.returnedMarkups.filter fun markup => outer (moved markup.span) = [])
      ((parenthesizing moved outer).apply t).returnedMarkups := by
  induction t with
  | node kind span children ih =>
      rw [Tree.returnedMarkups_eq, Tree.returnedMarkups_eq ((parenthesizing moved outer).apply _),
        children_apply, flatMap_returnedMarkups_dress, List.filter_append, List.filter_flatMap,
        List.flatMap_map]
      refine List.rel_append ?_ ?_
      · rw [← Option.toList_filter]
        exact forall₂_toList (rel_returnedMarkup?_apply moved outer _)
      · refine List.rel_flatMap (R := fun c c' => c ∈ children ∧ c = c')
          (List.forall₂_same.mpr fun c hc => ⟨hc, rfl⟩) ?_
        rintro c _ ⟨hc, rfl⟩
        exact ih c hc

end

section

variable {moved : Span → Span} {outer : Span → List Span}

/-- Parentheses hide a component just if they are written around all templates in it. -/
theorem isComponent_apply_iff {t : Tree} :
    ((parenthesizing moved outer).apply t).isComponent = true ↔
      t.isComponent = true ∧
        ∃ markup ∈ t.declared.returnedMarkups, outer (moved markup.span) = [] := by
  have hFound : ((parenthesizing moved outer).apply t.declared).returnedMarkups ≠ [] ↔
      ∃ markup ∈ t.declared.returnedMarkups, outer (moved markup.span) = [] := by
    have hLength := (forall₂_returnedMarkups_apply moved outer t.declared).length_eq
    rw [← List.length_pos_iff, ← hLength, List.length_filter_pos_iff]
    simp only [decide_eq_true_eq]
  have hSome : (∃ markup ∈ t.declared.returnedMarkups, outer (moved markup.span) = []) →
      t.declared.returnedMarkups ≠ [] :=
    fun ⟨_, hMem, _⟩ => List.ne_nil_of_mem hMem
  simp only [Tree.isComponent, declared_apply, exportableForm_apply, Bool.and_eq_true,
    Bool.not_eq_true', List.isEmpty_eq_false_iff, hFound]
  exact ⟨fun ⟨hForm, hBare⟩ => ⟨⟨hForm, hSome hBare⟩, hBare⟩,
    fun ⟨⟨hForm, _⟩, hBare⟩ => ⟨hForm, hBare⟩⟩

/-- The template of a function is found again just if no parentheses are written around it. -/
theorem rel_markup?_apply_iff {f : Tree} :
    Option.Rel (Markup.Moved moved) f.markup? ((parenthesizing moved outer).apply f).markup? ↔
      ∀ markup ∈ f.markup?, outer (moved markup.span) = [] := by
  have hLast := rel_getLast? (forall₂_returnedMarkups_apply moved outer f)
  change Option.Rel _ _ ((parenthesizing moved outer).apply f).markup? at hLast
  constructor
  · intro hRel markup hMarkup
    rw [Option.mem_def.mp hMarkup] at hRel
    generalize ((parenthesizing moved outer).apply f).markup? = found at hLast hRel
    cases hRel with
    | some hMoved =>
        generalize hBare : (f.returnedMarkups.filter _).getLast? = bare at hLast
        cases hLast with
        | some hMoved' =>
            -- The template found now stood bare, at the same new place as the one found before.
            rw [← hMoved.span, hMoved'.span]
            have hMem := List.mem_of_getLast? hBare
            exact of_decide_eq_true (List.mem_filter.mp hMem).2
  · intro hBare
    have hSame : (f.returnedMarkups.filter fun markup => outer (moved markup.span) = []).getLast? =
        f.markup? := by
      cases hMarkup : f.markup? with
      | none =>
          rw [List.getLast?_eq_none_iff.mp hMarkup]
          rfl
      | some markup =>
          obtain ⟨before, hSplit⟩ := List.getLast?_eq_some_iff.mp hMarkup
          rw [hSplit, List.filter_append, List.filter_singleton,
            decide_eq_true (hBare markup hMarkup), cond_true, List.getLast?_concat]
    rwa [← hSame]

end

/-- Of the templates in each component one is left without more parentheses, and so is the template
of each function. -/
structure SparesTemplates (moved : Span → Span) (outer : Span → List Span) (program : List Tree) :
    Prop where
  components : ∀ t ∈ program, t.isComponent = true →
    ∃ markup ∈ t.declared.returnedMarkups, outer (moved markup.span) = []
  templates : ∀ t ∈ program, ∀ f, t.functionInfo.1 = some f →
    ∀ markup ∈ f.markup?, outer (moved markup.span) = []

/-- Parentheses around returned values keep the components of a script and their templates just if
they spare the templates that the analysis finds. -/
theorem keepsTemplates_parenthesizing_iff (moved : Span → Span) (outer : Span → List Span)
    (program : List Tree) :
    (parenthesizing moved outer).KeepsTemplates program ↔
      SparesTemplates moved outer program := by
  constructor
  · intro h
    refine ⟨fun t ht hComponent => ?_, fun t ht f hf => ?_⟩
    · rw [← h.components t ht] at hComponent
      exact (isComponent_apply_iff.mp hComponent).2
    · exact rel_markup?_apply_iff.mp (h.templates t ht f hf)
  · intro h
    refine ⟨fun t ht => ?_, fun t ht f hf => ?_⟩
    · rw [Bool.eq_iff_iff, isComponent_apply_iff]
      exact and_iff_left_of_imp (h.components t ht)
    · exact rel_markup?_apply_iff.mpr (h.templates t ht f hf)

/-- The tree of a function with one template, which stands right behind its `return`. -/
def singleReturn : Tree :=
  .node (.function .declaration) ⟨0, 34⟩
    [.node (.binding "A") ⟨9, 10⟩ [],
      .node .parameters ⟨10, 12⟩ [],
      .node .functionBody ⟨13, 34⟩
        [.node .returnStatement ⟨15, 32⟩
          [.node .taggedTemplate ⟨22, 32⟩
            [.node (.reference "vine") ⟨22, 26⟩ [],
              .node .template ⟨26, 32⟩ [.node (.templateText (some "<a/>")) ⟨27, 31⟩ []]]]]]

/-- With parentheses around its template the function is no component and has no template. -/
theorem not_keepsTemplates_singleReturn :
    ¬ (parenthesizing (fun s => s.behindInsertion ⟨22, 32⟩ 1 1)
        fun s => if s = ⟨23, 33⟩ then [⟨22, 34⟩] else []).KeepsTemplates [singleReturn] := by
  intro h
  have hSame := h.components singleReturn List.mem_cons_self
  exact absurd hSame (by decide)

end Rewrapping

end ComponentAnalysis
