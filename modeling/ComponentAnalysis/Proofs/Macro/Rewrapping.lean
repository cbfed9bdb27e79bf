import ComponentAnalysis.Proofs.Macro.Initializer
import ComponentAnalysis.Proofs.Tree.Wrappers

/-! The macro calls of a script that is written anew with other wrappers around its values. Each
call is still there, bound to the same name and with arguments of the same shapes; the layers may
hold further calls, but none that takes its place. -/
namespace ComponentAnalysis

namespace Tree

/-- Layers add nodes around a value and take none away. -/
theorem preorder_sublist_wrap (layers : List Wrapper) (e : Tree) :
    e.preorder.Sublist (wrap layers e).preorder := by
  induction layers with
  | nil => exact List.Sublist.refl _
  | cons layer layers ih =>
      refine ih.trans ?_
      rw [wrap_cons, preorder_eq (layer.around _)]
      refine List.Sublist.cons _ ?_
      cases layer <;> simp [Wrapper.around, children]

/-- A variable that a call initializes stands inside the layers around the call. -/
theorem mem_of_mem_wrap {layers : List Wrapper} {c d e : Tree} (hApart : (wrap layers e).CallsApart)
    (hc : c ∈ e.calls) (hd : d ∈ (wrap layers e).preorder) (h : d.IsInitializedBy c) :
    d ∈ e.preorder := by
  obtain ⟨hMem, hCall⟩ := mem_calls.mp hc
  induction layers with
  | nil => exact hd
  | cons layer layers ih =>
      have hChild : wrap layers e ∈ (layer.around (wrap layers e)).children := by
        cases layer <;> simp [Wrapper.around, children]
      have hIn : c ∈ (wrap layers e).calls :=
        mem_calls.mpr ⟨(preorder_sublist_wrap layers e).subset hMem, hCall⟩
      have hNe : d ≠ layer.around (wrap layers e) :=
        h.ne_of_kind (by cases layer <;> simp [Wrapper.around, kind])
      exact ih (hApart.of_child hChild)
        (hApart.mem_child_of_mem hChild hIn hd hNe (h.mem_calls hCall))

end Tree

namespace Rewrapping

/-- The same of the layers that a rewrapping chooses for a part. -/
theorem preorder_sublist_dressed (layers : Span → List Wrapper) (part : Tree) :
    part.preorder.Sublist (dressed layers part).preorder := by
  obtain ⟨around, hWrap⟩ := exists_dressed_eq_wrap layers part
  rw [hWrap]
  exact part.preorder_sublist_wrap around

/-- A variable that a call of the part initializes is in the part, not in the layers around it. -/
theorem mem_of_mem_dressed {layers : Span → List Wrapper} {c d part : Tree}
    (hApart : (dressed layers part).CallsApart) (hc : c ∈ part.calls)
    (hd : d ∈ (dressed layers part).preorder) (h : d.IsInitializedBy c) : d ∈ part.preorder := by
  obtain ⟨around, hWrap⟩ := exists_dressed_eq_wrap layers part
  rw [hWrap] at hApart hd
  exact Tree.mem_of_mem_wrap hApart hc hd h

variable (r : Rewrapping)

/-- The nodes of a tree are all still there, in their order. -/
theorem map_preorder_sublist (t : Tree) :
    (t.preorder.map r.apply).Sublist (r.apply t).preorder := by
  induction t with
  | node kind span children ih =>
      rw [Tree.preorder_eq, Tree.preorder_eq (r.apply _), List.map_cons, List.map_flatMap]
      refine List.Sublist.cons_cons _ ?_
      have hEach := r.forall₂_children_apply (.node kind span children)
      change List.Forall₂ _ children _ at hEach
      change (children.flatMap fun c => c.preorder.map r.apply).Sublist _
      generalize (r.apply (.node kind span children)).children = children' at hEach ⊢
      induction hEach with
      | nil => exact List.Sublist.refl _
      | @cons c c' cs cs' hChild _ ihs =>
          obtain ⟨layers, rfl⟩ := hChild
          rw [List.flatMap_cons, List.flatMap_cons]
          exact ((ih c List.mem_cons_self).trans (preorder_sublist_dressed layers _)).append
            (ihs fun d hd => ih d (List.mem_cons_of_mem c hd))

/-- Each node is still there, written anew. -/
theorem apply_mem_preorder {n t : Tree} (h : n ∈ t.preorder) :
    r.apply n ∈ (r.apply t).preorder :=
  (r.map_preorder_sublist t).subset (List.mem_map_of_mem h)

/-- So are the calls, in the same order. -/
theorem map_calls_sublist (t : Tree) : (t.calls.map r.apply).Sublist (r.apply t).calls := by
  have hSame : t.calls.map r.apply =
      (t.preorder.map r.apply).filter fun n => n.kind = .call := by
    simp only [Tree.calls, List.filter_map, Function.comp_def, kind_apply]
  rw [hSame]
  exact (r.map_preorder_sublist t).filter _

/-- A call stays a call. -/
theorem apply_mem_calls {c t : Tree} (h : c ∈ t.calls) : r.apply c ∈ (r.apply t).calls :=
  (r.map_calls_sublist t).subset (List.mem_map_of_mem h)

variable {r} {c d t : Tree}

/-- Calls that are still told apart were told apart before, by where they stand now. -/
theorem pairwise_moved_ne (hApart : (r.apply t).CallsApart) :
    t.calls.Pairwise fun m n => r.moved m.span ≠ r.moved n.span := by
  have hCalls := hApart.sublist (r.map_calls_sublist t)
  rw [List.pairwise_map] at hCalls
  simpa only [span_apply] using hCalls

/-- Calls that are told apart afterwards were so before. -/
theorem callsApart_of_apply (hApart : (r.apply t).CallsApart) : t.CallsApart :=
  (pairwise_moved_ne hApart).imp fun hMoved hSpan => hMoved (congrArg r.moved hSpan)

/-- No two calls are moved to one place. -/
theorem eq_of_moved_eq {m n : Tree} (hApart : (r.apply t).CallsApart) (hm : m ∈ t.calls)
    (hn : n ∈ t.calls) (hMoved : r.moved m.span = r.moved n.span) : m = n := by
  by_contra hNe
  have hSymm : Std.Symm fun m n : Tree => r.moved m.span ≠ r.moved n.span :=
    ⟨fun _ _ => Ne.symm⟩
  exact List.Pairwise.forall (pairwise_moved_ne hApart) hm hn hNe hMoved

/-- A variable that such a call initializes is one of the variables before: none stands in the
layers, as the call itself does not. -/
theorem exists_apply_eq (hApart : (r.apply t).CallsApart) (hc : c ∈ t.calls)
    (hd : d ∈ (r.apply t).preorder) (h : d.IsInitializedBy (r.apply c)) :
    ∃ origin ∈ t.preorder, r.apply origin = d := by
  have hCall : (r.apply c).kind = .call := (r.kind_apply c).trans (Tree.mem_calls.mp hc).2
  induction t with
  | node kind span children ih =>
      rcases Tree.mem_preorder.mp hd with rfl | ⟨part, hPart, hdPart⟩
      · exact ⟨_, Tree.mem_preorder_self _, rfl⟩
      · have hIn : r.apply c ∈ part.calls := Tree.mem_calls_of_mem (h.mem_calls hCall) hdPart
        rcases Tree.mem_preorder.mp (Tree.mem_calls.mp hc).1 with rfl | ⟨child, hChild, hcChild⟩
        · exact absurd rfl (hApart.span_ne hCall hPart hIn)
        · have hc : c ∈ child.calls := Tree.mem_calls.mpr ⟨hcChild, (Tree.mem_calls.mp hc).2⟩
          obtain ⟨layers, hDressed⟩ := r.exists_dressed_mem_children hChild
          have hInside := preorder_sublist_dressed layers (r.apply child)
          have hIn' : r.apply c ∈ (dressed layers (r.apply child)).calls :=
            Tree.mem_calls.mpr ⟨hInside.subset (r.apply_mem_preorder hcChild), hCall⟩
          -- The variable is in the part that the call is in, and there inside the layers.
          obtain rfl := hApart.child_eq hPart hDressed hIn hIn' rfl
          have hApart' := hApart.of_child hDressed
          obtain ⟨origin, hOrigin, hSame⟩ := ih child hChild
            (hApart'.of_mem (hInside.subset (Tree.mem_preorder_self _))) hc
            (mem_of_mem_dressed hApart' (r.apply_mem_calls hc) hdPart h)
          exact ⟨origin, Tree.mem_preorder_of_child hChild hOrigin, hSame⟩

/-- The variable that a call initializes is initialized by it afterwards. -/
theorem isInitializedBy_apply (h : d.IsInitializedBy c) :
    (r.apply d).IsInitializedBy (r.apply c) := by
  obtain ⟨value, hValue, rfl⟩ := h
  refine ⟨dressed r.initializer (r.apply value), ?_, ?_⟩
  · rw [declaratorValue?_apply, hValue, Option.map_some]
  · rw [unwrap_dressed, unwrap_apply]

/-- It was so before, as long as the calls can be told apart afterwards. -/
theorem isInitializedBy_of_apply (hApart : (r.apply t).CallsApart) (hc : c ∈ t.calls)
    (hd : d ∈ t.preorder) (h : (r.apply d).IsInitializedBy (r.apply c)) :
    d.IsInitializedBy c := by
  obtain ⟨value', hValue', hUnwrap⟩ := h
  rw [declaratorValue?_apply] at hValue'
  obtain ⟨value, hValue, rfl⟩ := Option.map_eq_some_iff.mp hValue'
  rw [unwrap_dressed, unwrap_apply] at hUnwrap
  have hCall : value.unwrap.kind = .call := by
    rw [← r.kind_apply, hUnwrap, kind_apply]
    exact (Tree.mem_calls.mp hc).2
  have hIn : value.unwrap ∈ t.calls := Tree.mem_calls.mpr
    ⟨Tree.mem_preorder_trans (Tree.unwrap_mem_preorder_of_declaratorValue? hValue) hd, hCall⟩
  refine ⟨value, hValue, eq_of_moved_eq hApart hIn hc ?_⟩
  rw [← span_apply, hUnwrap, span_apply]

/-- A call is bound to the same name as before. -/
theorem bindingOfCall?_apply (hApart : (r.apply t).CallsApart) (hc : c ∈ t.calls) :
    (r.apply t).bindingOfCall? (r.moved c.span) = t.bindingOfCall? c.span := by
  apply Option.ext
  intro name
  rw [Tree.bindingOfCall?_eq_some_iff (callsApart_of_apply hApart) hc, ← r.span_apply c,
    Tree.bindingOfCall?_eq_some_iff hApart (r.apply_mem_calls hc)]
  constructor
  · rintro ⟨d', hd', hName, hInit⟩
    obtain ⟨d, hd, rfl⟩ := exists_apply_eq hApart hc hd' hInit
    rw [declaratorName?_apply] at hName
    exact ⟨d, hd, hName, isInitializedBy_of_apply hApart hc hd hInit⟩
  · rintro ⟨d, hd, hName, hInit⟩
    exact ⟨r.apply d, r.apply_mem_preorder hd, (r.declaratorName?_apply d).trans hName,
      isInitializedBy_apply hInit⟩

end Rewrapping

/-- Two shapes are the same up to the places of their literals. -/
inductive ArgumentShape.Moved (moved : Span → Span) : ArgumentShape → ArgumentShape → Prop
  | object : Moved moved .object .object
  | boolean (value : Bool) : Moved moved (.boolean value) (.boolean value)
  | string (place : Span) : Moved moved (.string place.inner) (.string (moved place).inner)
  | template (place : Span) (isInterpolated : Bool) :
      Moved moved (.template place.inner isInterpolated)
        (.template (moved place).inner isInterpolated)
  | tagged (tag : String) (place : Span) (isInterpolated : Bool) :
      Moved moved (.tagged tag place.inner isInterpolated)
        (.tagged tag (moved place).inner isInterpolated)
  | spread : Moved moved .spread .spread
  | other : Moved moved .other .other

/-- Two sites are of one macro call at two places: bound to the same name and with arguments of the
same shapes. -/
structure MacroSite.Moved (moved : Span → Span) (site site' : MacroSite) : Prop where
  name : site'.name = site.name
  span : site'.span = moved site.span
  binding : site'.binding = site.binding
  arguments : List.Forall₂ (fun a a' => ArgumentShape.Moved moved a.shape a'.shape)
    site.arguments site'.arguments

namespace Rewrapping

variable (r : Rewrapping)

/-- The shape of an argument is read through the layers around it. -/
theorem moved_ofArgument (layers : Span → List Wrapper) (t : Tree) :
    ArgumentShape.Moved r.moved (.ofArgument t) (.ofArgument (dressed layers (r.apply t))) := by
  have hSpread : (dressed layers (r.apply t)).kind = .spread ↔ t.kind = .spread := by
    rw [kind_dressed_eq_iff _ _ rfl, kind_apply]
  simp only [ArgumentShape.ofArgument, hSpread, unwrap_dressed, unwrap_apply, kind_apply,
    span_apply, isInterpolated_apply, tagged?_apply]
  split
  · exact .spread
  · split
    · exact .object
    · exact .boolean _
    · exact .string _
    · exact .template _ _
    · cases t.unwrap.tagged? with
      | none => exact .other
      | some parts =>
          obtain ⟨tag, template⟩ := parts
          simp only [Option.map_some, referenceName?_apply, span_apply, isInterpolated_apply]
          split
          · exact .tagged _ _ _
          · exact .other
    · exact .other

/-- The arguments of a call are those before, each in its layers. -/
theorem callArguments_apply (t : Tree) :
    (r.apply t).callArguments =
      t.callArguments.map fun a => dressed r.argument (r.apply a) := by
  obtain ⟨kind, span, _ | ⟨callee, rest⟩⟩ := t
  · cases kind <;> rfl
  · cases kind with
    | call =>
        have hKind : ∀ a : Tree, (dressed r.argument (r.apply a)).kind ≠ .typeArguments ↔
            a.kind ≠ .typeArguments := fun a => by
          rw [Ne, kind_dressed_eq_iff _ _ rfl, kind_apply]
        simp only [apply_node, dress, List.map_cons, List.map_map, Tree.callArguments,
          List.filter_map, Function.comp_def, hKind]
    | _ => rfl

variable {r} {c f : Tree}

/-- The site of a call differs in places only. -/
theorem moved_ofCall (hApart : (r.apply f).CallsApart) (hc : c ∈ f.calls) (name : MacroName) :
    MacroSite.Moved r.moved (.ofCall f c name) (.ofCall (r.apply f) (r.apply c) name) where
  name := rfl
  span := r.span_apply c
  binding := by
    change (r.apply f).bindingOfCall? (r.apply c).span = f.bindingOfCall? c.span
    rw [span_apply, bindingOfCall?_apply hApart hc]
  arguments := by
    change List.Forall₂ _ (c.callArguments.map _) ((r.apply c).callArguments.map _)
    rw [callArguments_apply, List.map_map, List.forall₂_map_left_iff, List.forall₂_map_right_iff]
    exact List.forall₂_same.mpr fun a _ => r.moved_ofArgument r.argument a

/-- The sites of a function are all still there, in their order. -/
theorem sublistForall₂_macroSites (hApart : (r.apply f).CallsApart) :
    List.SublistForall₂ (MacroSite.Moved r.moved) f.macroSites (r.apply f).macroSites := by
  have hSites : ∀ ns : List Tree, (∀ n ∈ ns, n ∈ f.preorder) →
      List.Forall₂ (MacroSite.Moved r.moved)
        (ns.filterMap fun n => n.macroName?.map (MacroSite.ofCall f n))
        ((ns.map r.apply).filterMap fun n =>
          n.macroName?.map (MacroSite.ofCall (r.apply f) n)) := by
    intro ns hMem
    induction ns with
    | nil => exact .nil
    | cons n ns ih =>
        have hRest := ih fun m hm => hMem m (List.mem_cons_of_mem n hm)
        rw [List.map_cons, List.filterMap_cons, List.filterMap_cons, macroName?_apply]
        cases hName : n.macroName? with
        | none => exact hRest
        | some name =>
            have hCall : n ∈ f.calls := Tree.mem_calls.mpr
              ⟨hMem n List.mem_cons_self, Tree.kind_of_macroName? hName⟩
            exact .cons (moved_ofCall hApart hCall name) hRest
  exact List.sublistForall₂_iff.mpr
    ⟨_, hSites f.preorder fun _ hn => hn, (r.map_preorder_sublist f).filterMap _⟩

end Rewrapping

end ComponentAnalysis
