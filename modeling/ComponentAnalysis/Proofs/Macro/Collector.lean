import ComponentAnalysis.Proofs.Macro.Initializer
import Mathlib.Logic.Function.Basic

/-! Macro calls as one walk collects them. At a variable that a call initializes, the walk notes the
name of the variable for the span of the call; at a macro call, it takes out the name noted for the
span. If calls are told apart by their spans, no name is lost or taken by another call, so each site
gets the name that a lookup in the whole function finds. -/
namespace ComponentAnalysis

/-- What a walk has collected: the sites of macro calls, and the names noted for spans of calls. -/
structure SiteCollector where
  sites : List MacroSite := []
  noted : Span → Option String := fun _ => none

/-- The site of a macro call, with the name it is bound to. -/
def MacroSite.ofBoundCall (call : Tree) (name : MacroName) (binding : Option String) :
    MacroSite where
  name := name
  span := call.span
  binding := binding
  typeArgumentCount := call.callTypes.length
  typeArgument := call.callTypes.head?.map .ofType
  arguments := call.callArguments.map .ofArgument
  references := if name.base.isHoisted then Tree.freeReferences call.callArguments else []

namespace Tree

/-- The span of the call that initializes a variable of a plain name, and the name. -/
def notedCall? (t : Tree) : Option (Span × String) :=
  match t.declaratorName?, t.declaratorValue?.map unwrap with
  | some name, some value => if value.kind = .call then some (value.span, name) else none
  | _, _ => none

end Tree

namespace SiteCollector

open ComponentAnalysis.Tree

def enter (t : Tree) (collector : SiteCollector) : SiteCollector :=
  match t.notedCall?, t.macroName? with
  | some (span, name), _ =>
    { collector with noted := Function.update collector.noted span (some name) }
  | none, some name =>
    ⟨collector.sites ++ [.ofBoundCall t name (collector.noted t.span)],
      Function.update collector.noted t.span none⟩
  | none, none => collector

mutual

def visit : Tree → SiteCollector → SiteCollector
  | node kind span children, collector =>
    visitAll children (collector.enter (node kind span children))

def visitAll : List Tree → SiteCollector → SiteCollector
  | [], collector => collector
  | t :: ts, collector => visitAll ts (visit t collector)

end

end SiteCollector

/-! The names that several trees note. -/

namespace Tree

/-- The name of the first variable in several trees whose initializer is the call at a span. -/
def boundAmong? (ts : List Tree) (span : Span) : Option String :=
  (ts.flatMap preorder).findSome? fun d => d.boundName? span

/-- Names are looked for in the first tree first. -/
theorem boundAmong?_cons (t : Tree) (ts : List Tree) (span : Span) :
    boundAmong? (t :: ts) span = (boundAmong? [t] span).or (boundAmong? ts span) := by
  rw [boundAmong?, List.flatMap_cons, List.findSome?_append, boundAmong?, List.flatMap_singleton]
  rfl

/-- In a tree, a name is looked for at the root before anything below it. -/
theorem boundAmong?_singleton (t : Tree) (span : Span) :
    boundAmong? [t] span = (t.boundName? span).or (boundAmong? t.children span) := by
  rw [boundAmong?, List.flatMap_singleton, preorder_eq, List.findSome?_cons]
  cases t.boundName? span <;> rfl

/-- The lookup in a whole function is this one. -/
theorem bindingOfCall?_eq_boundAmong? (t : Tree) (span : Span) :
    t.bindingOfCall? span = boundAmong? [t] span := by
  rw [bindingOfCall?_eq, boundAmong?, List.flatMap_singleton]

/-- A node gives a name to a span if and only if it notes it there. -/
theorem boundName?_eq_some_iff_notedCall? {d : Tree} {span : Span} {name : String} :
    d.boundName? span = some name ↔ d.notedCall? = some (span, name) := by
  rw [boundName?, notedCall?]
  cases d.declaratorName? <;> cases d.declaratorValue?.map unwrap <;> grind

/-- A name is noted for the span of a call only. -/
theorem exists_of_notedCall? {d : Tree} {span : Span} {name : String}
    (h : d.notedCall? = some (span, name)) :
    ∃ c, c.kind = .call ∧ c.span = span ∧ d.IsInitializedBy c := by
  rw [notedCall?] at h
  split at h
  · rename_i hUnwrapped
    obtain ⟨value, hValue, rfl⟩ := Option.map_eq_some_iff.mp hUnwrapped
    obtain ⟨hCall, hPair⟩ := Option.ite_none_right_eq_some.mp h
    exact ⟨value.unwrap, hCall, congrArg Prod.fst (Option.some.inj hPair), value, hValue, rfl⟩
  · cases h

/-- A node that is no variable with a call notes no name of its own. -/
theorem boundAmong?_of_notedCall?_eq_none {t : Tree} (h : t.notedCall? = none) (span : Span) :
    boundAmong? [t] span = boundAmong? t.children span := by
  have hNone : t.boundName? span = none :=
    Option.eq_none_iff_forall_ne_some.mpr fun name hName => by
      rw [boundName?_eq_some_iff_notedCall?, h] at hName
      cases hName
  rw [boundAmong?_singleton, hNone, Option.none_or]

/-- Names are noted for spans of calls that stand in the trees. -/
theorem boundAmong?_eq_none {ts : List Tree} {span : Span}
    (h : ∀ n ∈ ts.flatMap calls, n.span ≠ span) : boundAmong? ts span = none := by
  refine List.findSome?_eq_none_iff.mpr fun d hd => ?_
  obtain ⟨t, ht, hd⟩ := List.mem_flatMap.mp hd
  refine Option.eq_none_iff_forall_ne_some.mpr fun name hName => ?_
  obtain ⟨c, hCall, hSpan, hInit⟩ :=
    exists_of_notedCall? (boundName?_eq_some_iff_notedCall?.mp hName)
  exact h c (List.mem_flatMap.mpr ⟨t, ht, mem_calls_of_mem (hInit.mem_calls hCall) hd⟩) hSpan

/-- Below a variable, no other variable is initialized by the same call. -/
theorem boundAmong?_children_eq_none {d : Tree} {span : Span} {name : String}
    (hApart : d.CallsApart) (h : d.notedCall? = some (span, name)) :
    boundAmong? d.children span = none := by
  obtain ⟨c, hCall, hSpan, hInit⟩ := exists_of_notedCall? h
  refine List.findSome?_eq_none_iff.mpr fun d' hd' => ?_
  obtain ⟨a, ha, hd'⟩ := List.mem_flatMap.mp hd'
  refine Option.eq_none_iff_forall_ne_some.mpr fun other hOther => ?_
  obtain ⟨c', hCall', hSpan', hInit'⟩ :=
    exists_of_notedCall? (boundName?_eq_some_iff_notedCall?.mp hOther)
  have hIn' : c' ∈ a.calls := mem_calls_of_mem (hInit'.mem_calls hCall') hd'
  obtain rfl : c = c' := hApart.eq_of_span_eq (hInit.mem_calls hCall)
    (mem_calls_of_mem hIn' (mem_preorder_of_mem_children ha)) (hSpan.trans hSpan'.symm)
  exact hInit.not_mem_child hApart hCall hInit' ha hd'

end Tree

/-! What a walk collects. -/

namespace SiteCollector

open ComponentAnalysis.Tree

/-- The site of a node in several trees if it is a macro call, bound to the name that a variable in
the trees has or that was noted before. -/
def siteIn? (ts : List Tree) (noted : Span → Option String) (n : Tree) : Option MacroSite :=
  n.macroName?.map fun name =>
    .ofBoundCall n name ((boundAmong? ts n.span).or (noted n.span))

/-- Between two states of a walk, the macro calls of several trees are collected in preorder. Names
are noted or taken out only for spans of calls in the trees. -/
structure Resolves (before after : SiteCollector) (ts : List Tree) : Prop where
  sites : after.sites =
    before.sites ++ (ts.flatMap preorder).filterMap (siteIn? ts before.noted)
  noted : ∀ span, (∀ n ∈ ts.flatMap calls, n.span ≠ span) →
    after.noted span = before.noted span

/-- The sites in some trees depend on the names for the spans of their calls and on nothing else. -/
theorem filterMap_siteIn?_congr {us ts ts' : List Tree} {noted noted' : Span → Option String}
    (h : ∀ n ∈ us.flatMap calls, (boundAmong? ts n.span).or (noted n.span) =
      (boundAmong? ts' n.span).or (noted' n.span)) :
    (us.flatMap preorder).filterMap (siteIn? ts noted) =
      (us.flatMap preorder).filterMap (siteIn? ts' noted') := by
  refine List.filterMap_congr fun n hn => ?_
  cases hName : n.macroName? with
  | none => simp [siteIn?, hName]
  | some name =>
      obtain ⟨u, hu, hn⟩ := List.mem_flatMap.mp hn
      have hIn : n ∈ u.calls := mem_calls.mpr ⟨hn, kind_of_macroName? hName⟩
      rw [siteIn?, siteIn?, hName, h n (List.mem_flatMap.mpr ⟨u, hu, hIn⟩)]

/-- Trees that are collected one after the other are collected together. The names noted in one do
not disturb the next, whose calls have other spans. -/
theorem visitAll_resolves_of (ts : List Tree)
    (ih : ∀ t ∈ ts, ∀ collector : SiteCollector, t.CallsApart →
      Resolves collector (visit t collector) [t])
    (hApart : (ts.flatMap calls).Pairwise fun m n => m.span ≠ n.span)
    (collector : SiteCollector) : Resolves collector (visitAll ts collector) ts := by
  induction ts generalizing collector with
  | nil => exact ⟨(List.append_nil _).symm, fun _ _ => rfl⟩
  | cons t ts ihTail =>
      rw [List.flatMap_cons, List.pairwise_append] at hApart
      obtain ⟨hHead, hTail, hAcross⟩ := hApart
      have hFirst := ih t List.mem_cons_self collector hHead
      have hRest := ihTail (fun u hu => ih u (List.mem_cons_of_mem t hu)) hTail
        (visit t collector)
      rw [visitAll]
      constructor
      · rw [hRest.sites, hFirst.sites, List.flatMap_singleton, List.flatMap_cons,
          List.filterMap_append, List.append_assoc]
        congr 2
        · rw [← List.flatMap_singleton preorder t]
          refine filterMap_siteIn?_congr fun n hn => ?_
          rw [List.flatMap_singleton] at hn
          rw [boundAmong?_cons t ts, boundAmong?_eq_none fun m hm => (hAcross n hn m hm).symm,
            Option.or_none]
        · refine filterMap_siteIn?_congr fun n hn => ?_
          have hOutside : ∀ m ∈ [t].flatMap calls, m.span ≠ n.span := by
            intro m hm
            rw [List.flatMap_singleton] at hm
            exact hAcross m hm n hn
          rw [boundAmong?_cons t ts, boundAmong?_eq_none hOutside, Option.none_or,
            hFirst.noted n.span hOutside]
      · intro span hSpan
        rw [List.flatMap_cons, List.forall_mem_append] at hSpan
        rw [hRest.noted span hSpan.2, hFirst.noted span (by simpa using hSpan.1)]

section

variable {t : Tree} {collector inner after : SiteCollector}

/-- A node is resolved if the nodes below it are and, in front of them, its own site is collected
and names are noted just so that each call below the node gets the name it has in the whole node. -/
theorem Resolves.of_children (hBelow : Resolves inner after t.children)
    (hSites : inner.sites = collector.sites ++ (siteIn? [t] collector.noted t).toList)
    (hNames : ∀ n ∈ t.children.flatMap calls,
      (boundAmong? t.children n.span).or (inner.noted n.span) =
        (boundAmong? [t] n.span).or (collector.noted n.span))
    (hNoted : ∀ span, (∀ n ∈ t.calls, n.span ≠ span) →
      inner.noted span = collector.noted span) : Resolves collector after [t] := by
  constructor
  · have hOwn : ([t].flatMap preorder).filterMap (siteIn? [t] collector.noted) =
        (siteIn? [t] collector.noted t).toList ++
          (t.children.flatMap preorder).filterMap (siteIn? [t] collector.noted) := by
      rw [List.flatMap_singleton, preorder_eq, List.filterMap_cons]
      cases siteIn? [t] collector.noted t <;> rfl
    rw [hBelow.sites, hSites, hOwn, List.append_assoc, filterMap_siteIn?_congr hNames]
  · intro span hSpan
    rw [List.flatMap_singleton] at hSpan
    have hSpanBelow : ∀ n ∈ t.children.flatMap calls, n.span ≠ span := fun n hn =>
      hSpan n (by rw [calls_eq]; exact List.mem_append_right _ hn)
    rw [hBelow.noted span hSpanBelow, hNoted span hSpan]

variable (hApart : t.CallsApart)

include hApart

/-- The name of a variable is taken by the call that initializes it, for no variable below it notes
another name for the span. -/
theorem resolves_noted {span : Span} {name : String} (hNoted : t.notedCall? = some (span, name))
    (hBelow : Resolves
      { collector with noted := Function.update collector.noted span (some name) } after
      t.children) : Resolves collector after [t] := by
  obtain ⟨c, hCall, rfl, hInit⟩ := exists_of_notedCall? hNoted
  have hNoSite : siteIn? [t] collector.noted t = none := by
    obtain ⟨kind, place, children⟩ := t
    cases kind <;> first | rfl | cases hNoted
  refine hBelow.of_children (by rw [hNoSite]; exact (List.append_nil _).symm) ?_ ?_
  · intro n _
    rw [boundAmong?_singleton]
    by_cases hSame : n.span = c.span
    · rw [hSame, boundAmong?_children_eq_none hApart hNoted,
        boundName?_eq_some_iff_notedCall?.mpr hNoted, Option.none_or]
      exact Function.update_self c.span (some name) collector.noted
    · have hOther : t.boundName? n.span = none := by
        refine Option.eq_none_iff_forall_ne_some.mpr fun other hOther => hSame ?_
        rw [boundName?_eq_some_iff_notedCall?, hNoted] at hOther
        exact (congrArg Prod.fst (Option.some.inj hOther)).symm
      rw [hOther, Option.none_or]
      exact congrArg _ (Function.update_of_ne hSame _ _)
  · intro span hSpan
    exact Function.update_of_ne (hSpan c (hInit.mem_calls hCall)).symm _ _

/-- A macro call takes the name that is noted for its span, and no call below it has the span. -/
theorem resolves_called {name : MacroName} (hNoted : t.notedCall? = none)
    (hName : t.macroName? = some name)
    (hBelow : Resolves ⟨collector.sites ++ [.ofBoundCall t name (collector.noted t.span)],
      Function.update collector.noted t.span none⟩ after t.children) :
    Resolves collector after [t] := by
  have hOwn : ∀ n ∈ t.children.flatMap calls, t.span ≠ n.span :=
    (callsApart_iff.mp hApart).1 (kind_of_macroName? hName)
  have hSite : siteIn? [t] collector.noted t =
      some (.ofBoundCall t name (collector.noted t.span)) := by
    rw [siteIn?, hName, Option.map_some, boundAmong?_of_notedCall?_eq_none hNoted,
      boundAmong?_eq_none fun n hn => (hOwn n hn).symm, Option.none_or]
  refine hBelow.of_children (by rw [hSite]; rfl) ?_ ?_
  · intro n hn
    rw [boundAmong?_of_notedCall?_eq_none hNoted]
    exact congrArg _ (Function.update_of_ne (hOwn n hn).symm _ _)
  · intro span hSpan
    have hSelf : t ∈ t.calls := mem_calls.mpr ⟨t.mem_preorder_self, kind_of_macroName? hName⟩
    exact Function.update_of_ne (hSpan t hSelf).symm _ _

omit hApart in
/-- A node that is neither a macro call nor such a variable only passes on what is below it. -/
theorem resolves_plain (hNoted : t.notedCall? = none) (hName : t.macroName? = none)
    (hBelow : Resolves collector after t.children) : Resolves collector after [t] := by
  refine hBelow.of_children ?_ (fun n _ => ?_) fun _ _ => rfl
  · rw [siteIn?, hName]
    exact (List.append_nil _).symm
  · rw [boundAmong?_of_notedCall?_eq_none hNoted]

/-- What a walk does at a node, with what it does below the node, resolves the node. -/
theorem resolves_of_enter (hBelow : Resolves (collector.enter t) after t.children) :
    Resolves collector after [t] := by
  rw [enter] at hBelow
  cases hNoted : t.notedCall? with
  | some noted =>
      simp only [hNoted] at hBelow
      exact resolves_noted hApart hNoted hBelow
  | none =>
      cases hName : t.macroName? with
      | some name =>
          simp only [hNoted, hName] at hBelow
          exact resolves_called hApart hNoted hName hBelow
      | none =>
          simp only [hNoted, hName] at hBelow
          exact resolves_plain hNoted hName hBelow

end

/-- The walk resolves every tree whose calls are told apart. -/
theorem visit_resolves (t : Tree) (hApart : t.CallsApart) (collector : SiteCollector) :
    Resolves collector (visit t collector) [t] := by
  induction t generalizing collector with
  | node kind span children ih =>
      refine resolves_of_enter hApart ?_
      exact visitAll_resolves_of children
        (fun c hc collector _ => ih c hc (hApart.of_child hc) collector)
        (callsApart_iff.mp hApart).2 _

/-- The walk over a function collects the sites of its macro calls, each with the name that a lookup
in the whole function finds. -/
theorem sites_visit {f : Tree} (hApart : f.CallsApart) : (visit f {}).sites = f.macroSites := by
  rw [(visit_resolves f hApart {}).sites, List.nil_append, macroSites, List.flatMap_singleton]
  refine List.filterMap_congr fun n _ => ?_
  rw [siteIn?, ← bindingOfCall?_eq_boundAmong?]
  dsimp only
  simp only [Option.or_none]
  rfl

end SiteCollector

end ComponentAnalysis
