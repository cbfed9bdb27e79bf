import ComponentAnalysis.Script.Parser
import ComponentAnalysis.Proofs.Script.Token
import ComponentAnalysis.Proofs.Tree.Calls
import Mathlib.Data.List.Forall2

/-! What parsers read. On the way from one cursor to another a parser reads trees that stand one
behind the other between the two, so a node over all of them is one that parsers give. -/
namespace ComponentAnalysis

namespace Tree

/-- All of several trees are parsed and lie within a span. -/
def AllPlaced (span : Span) (ts : List Tree) : Prop := ∀ t ∈ ts, t.Parsed ∧ t.span.Within span

/-- A node over trees in order is parsed, provided that it covers them and some text. A call has to
end behind all of them, which tells it from its arguments. -/
theorem Parsed.node {kind : Kind} {span : Span} {children : List Tree}
    (hSpan : span.start < span.stop) (hChildren : AllPlaced span children)
    (hApart : kind.ordersChildren = true → children.Pairwise Before)
    (hWalk : children.Pairwise Leads)
    (hCall : kind = .call → children ≠ [] ∧ ∀ c ∈ children, c.span.stop < span.stop) :
    (node kind span children).Parsed := by
  refine ⟨⟨fun n hn => ?_, fun n hn => ?_⟩, fun n hn => ?_⟩
  · rcases mem_preorder.mp hn with rfl | ⟨c, hc, hn⟩
    · exact ⟨Nat.le_of_lt hSpan, fun _ => hSpan, fun c hc => (hChildren c hc).2, hApart⟩
    · exact (hChildren c hc).1.wellPlaced n hn
  · rcases mem_preorder.mp hn with rfl | ⟨c, hc, hn⟩
    · exact hWalk
    · exact (hChildren c hc).1.walkOrdered n hn
  · rcases mem_preorder.mp hn with rfl | ⟨c, hc, hn⟩
    · exact hCall
    · exact (hChildren c hc).1.closesCalls n hn

/-- The children of a parsed node are parsed and within it. -/
theorem Parsed.allPlaced {t : Tree} (h : t.Parsed) : AllPlaced t.span t.children :=
  fun c hc => ⟨h.of_child hc, h.wellPlaced.placed.within c hc⟩

/-- Trees that stand apart are in the order of a walk. -/
theorem LaidOut.leads {t : Tree} (h : t.LaidOut) : t.children.Pairwise Leads :=
  h.walkOrdered t t.mem_preorder_self

/-- Trees may be placed in a larger span. -/
theorem AllPlaced.mono {span span' : Span} {ts : List Tree} (h : AllPlaced span ts)
    (hSpan : span.Within span') : AllPlaced span' ts :=
  fun t ht => ⟨(h t ht).1, (h t ht).2.trans hSpan⟩

theorem allPlaced_nil (span : Span) : AllPlaced span [] := List.forall_mem_nil _

theorem allPlaced_cons {span : Span} {t : Tree} {ts : List Tree} :
    AllPlaced span (t :: ts) ↔ (t.Parsed ∧ t.span.Within span) ∧ AllPlaced span ts :=
  List.forall_mem_cons

theorem allPlaced_append {span : Span} {ts us : List Tree} :
    AllPlaced span (ts ++ us) ↔ AllPlaced span ts ∧ AllPlaced span us :=
  List.forall_mem_append

/-- A shorthand has its name in two places, so other trees may stand over the name. -/
theorem AllPlaced.shorthand {span : Span} {key : Tree} {value others : List Tree}
    (h : AllPlaced span (key :: value)) (hOthers : AllPlaced span others) :
    AllPlaced span (key :: others) :=
  allPlaced_cons.mpr ⟨(allPlaced_cons.mp h).1, hOthers⟩

/-- A tree may be put in the place of another, which covers some text. -/
structure StandsFor (u t : Tree) : Prop where
  span : u.span = t.span
  parsed : t.span.start < t.span.stop → t.Parsed → u.Parsed

/-- A tree stands for itself. -/
theorem StandsFor.refl (t : Tree) : t.StandsFor t := ⟨rfl, fun _ => id⟩

/-- A leaf stands for a tree at its place. -/
theorem standsFor_leaf (t : Tree) (kind : Kind) (hKind : kind.isCall = false) :
    (node kind t.span []).StandsFor t :=
  ⟨rfl, fun hCovers _ => Parsed.node hCovers (allPlaced_nil _) (fun _ => .nil) .nil
    (absurd · (Kind.ne_call hKind))⟩

/-- A node around a tree at its place stands for the tree. -/
theorem StandsFor.wrap {u t : Tree} (h : u.StandsFor t) (kind : Kind)
    (hKind : kind.isCall = false) : (node kind t.span [u]).StandsFor t := by
  have hNoCall := Kind.ne_call hKind
  refine ⟨rfl, fun hCovers hParsed => Parsed.node hCovers ?_ (fun _ => ?_) ?_ (absurd · hNoCall)⟩
  · refine allPlaced_cons.mpr ⟨⟨h.parsed hCovers hParsed, ?_⟩, allPlaced_nil _⟩
    rw [h.span]
    exact Span.Within.refl _
  · exact List.pairwise_singleton _ _
  · exact List.pairwise_singleton _ _

end Tree

namespace Script

/-- The next token of a cursor has text for its lexeme and stands behind all that was read. -/
structure Cursor.Sound (c : Cursor) : Prop where
  solid : c.token.Solid
  behind : c.lastStop ≤ c.token.start

/-- The cursor behind the next token. -/
def Cursor.advanced (c : Cursor) : Cursor :=
  { c with token := c.token.next, lastStop := c.token.stop }

/-- From one cursor to another some trees were read, one behind the other. With `moved` some text
was read as well. -/
structure Reads (moved : Bool) (c : Cursor) (ts : List Tree) (c' : Cursor) : Prop where
  sound : c'.Sound
  lastStop_le : c.lastStop ≤ c'.lastStop
  start_le : c.token.start ≤ c'.token.start
  moved : moved = true → c.token.start < c'.lastStop
  placed : Tree.AllPlaced ⟨c.token.start, c'.lastStop⟩ ts
  covers : ∀ t ∈ ts, t.span.start < t.span.stop
  apart : ts.Pairwise Tree.Before

namespace Reads

variable {moved moved' : Bool} {c c' c'' : Cursor} {ts us : List Tree} {t u : Tree}

/-- Trees that are read are in the order of a walk. -/
theorem leads (h : Reads moved c ts c') : ts.Pairwise Tree.Leads :=
  Tree.pairwise_leads_of_before h.apart

/-- At a sound cursor nothing has been read yet. -/
theorem refl (h : c.Sound) : Reads false c [] c where
  sound := h
  lastStop_le := Nat.le_refl _
  start_le := Nat.le_refl _
  moved hMoved := Bool.noConfusion hMoved
  placed := Tree.allPlaced_nil _
  covers := List.forall_mem_nil _
  apart := List.Pairwise.nil

/-- That some text was read may be forgotten. -/
theorem weaken (h : Reads moved c ts c') : Reads false c ts c' :=
  { h with moved := fun hMoved => Bool.noConfusion hMoved }

/-- A parser that has read some text has at least moved as far as any other. -/
theorem relax (h : Reads true c ts c') : Reads moved c ts c' := by
  cases moved with
  | true => exact h
  | false => exact h.weaken

/-- Readings in sequence make one reading. -/
theorem trans (h : Reads moved c ts c') (h' : Reads moved' c' us c'') :
    Reads (moved || moved') c (ts ++ us) c'' where
  sound := h'.sound
  lastStop_le := Nat.le_trans h.lastStop_le h'.lastStop_le
  start_le := Nat.le_trans h.start_le h'.start_le
  moved hMoved := by
    rcases (Bool.or_eq_true _ _).mp hMoved with hFirst | hSecond
    · exact Nat.lt_of_lt_of_le (h.moved hFirst) h'.lastStop_le
    · exact Nat.lt_of_le_of_lt h.start_le (h'.moved hSecond)
  placed := Tree.allPlaced_append.mpr ⟨h.placed.mono ⟨Nat.le_refl _, h'.lastStop_le⟩,
    h'.placed.mono ⟨h.start_le, Nat.le_refl _⟩⟩
  covers := List.forall_mem_append.mpr ⟨h.covers, h'.covers⟩
  apart := by
    refine List.pairwise_append.mpr ⟨h.apart, h'.apart, fun t ht u hu => ?_⟩
    exact Nat.le_trans (h.placed t ht).2.2 (Nat.le_trans h.sound.behind (h'.placed u hu).2.1)

/-- Some of the trees may be dropped. -/
theorem sublist (h : Reads moved c ts c') (hSub : us.Sublist ts) : Reads moved c us c' :=
  { h with
    placed := fun t ht => h.placed t (hSub.subset ht)
    covers := fun t ht => h.covers t (hSub.subset ht)
    apart := h.apart.sublist hSub }

/-- Trees that were read later may be left out. -/
theorem skip (h : Reads moved c ts c') (h' : Reads moved' c' us c'') : Reads moved c ts c'' := by
  have hAll := (h.trans h').sublist (List.sublist_append_left _ _)
  cases moved with
  | true => exact hAll
  | false => exact hAll.weaken

/-- Some text was read if a tree was read. -/
theorem of_mem (h : Reads moved c ts c') (ht : t ∈ ts) : Reads true c ts c' := by
  refine { h with moved := fun _ => ?_ }
  obtain ⟨-, hStart, hStop⟩ := h.placed t ht
  exact Nat.lt_of_le_of_lt hStart (Nat.lt_of_lt_of_le (h.covers t ht) hStop)

/-- Trees may be replaced by others that stand for them. -/
theorem replace (h : Reads moved c ts c') (hSame : List.Forall₂ Tree.StandsFor us ts) :
    Reads moved c us c' := by
  have hSpans : us.map Tree.span = ts.map Tree.span := by
    clear h
    induction hSame with
    | nil => rfl
    | cons hHead _ ih => rw [List.map_cons, List.map_cons, hHead.span, ih]
  refine { h with placed := ?_, covers := ?_, apart := ?_ }
  · have hPlaced := h.placed
    have hCovers := h.covers
    clear h hSpans
    induction hSame with
    | nil => exact Tree.allPlaced_nil _
    | cons hHead _ ih =>
        obtain ⟨⟨hParsed, hWithin⟩, hRest⟩ := Tree.allPlaced_cons.mp hPlaced
        obtain ⟨hCovers, hCoversRest⟩ := List.forall_mem_cons.mp hCovers
        refine Tree.allPlaced_cons.mpr ⟨⟨hHead.parsed hCovers hParsed, ?_⟩, ih hRest hCoversRest⟩
        rw [hHead.span]
        exact hWithin
  · have hCovers : ∀ span ∈ ts.map Tree.span, span.start < span.stop :=
      List.forall_mem_map.mpr h.covers
    rw [← hSpans] at hCovers
    exact List.forall_mem_map.mp hCovers
  · have hApart : (ts.map Tree.span).Pairwise fun a b => a.stop ≤ b.start :=
      List.pairwise_map.mpr h.apart
    rw [← hSpans] at hApart
    exact (List.pairwise_map (f := Tree.span)).mp hApart

/-- The last tree may be replaced, as by a node around it. -/
theorem replaceLast (h : Reads moved c (ts ++ [t]) c') (hu : u.StandsFor t) :
    Reads moved c (ts ++ [u]) c' :=
  h.replace (List.rel_append (List.forall₂_same.mpr fun t _ => .refl t) (.cons hu .nil))

/-- So may the first one. -/
theorem replaceFirst (h : Reads moved c (t :: ts) c') (hu : u.StandsFor t) :
    Reads moved c (u :: ts) c' :=
  h.replace (.cons hu (List.forall₂_same.mpr fun t _ => .refl t))

/-- A node over all that was read. -/
theorem node (h : Reads true c ts c') (kind : Kind) {children : List Tree}
    (hChildren : Tree.AllPlaced ⟨c.token.start, c'.lastStop⟩ children)
    (hApart : kind.ordersChildren = true → children.Pairwise Tree.Before)
    (hWalk : children.Pairwise Tree.Leads)
    (hCall : kind = .call → children ≠ [] ∧ ∀ t ∈ children, t.span.stop < c'.lastStop) :
    Reads true c [.node kind ⟨c.token.start, c'.lastStop⟩ children] c' := by
  refine { h with
    placed := ?_
    covers := List.forall_mem_singleton.mpr (h.moved rfl)
    apart := List.pairwise_singleton _ _ }
  refine Tree.allPlaced_cons.mpr ⟨⟨?_, Span.Within.refl _⟩, Tree.allPlaced_nil _⟩
  exact Tree.Parsed.node (h.moved rfl) hChildren hApart hWalk hCall

/-- A node over the last two trees that were read. -/
theorem join (h : Reads moved c (ts ++ [t, u]) c') (kind : Kind)
    (hKind : kind.isCall = false) :
    Reads moved c (ts ++ [.node kind ⟨t.span.start, u.span.stop⟩ [t, u]]) c' := by
  obtain ⟨hPlaced, hLast⟩ := Tree.allPlaced_append.mp h.placed
  obtain ⟨⟨hParsed, hWithin⟩, hOther⟩ := Tree.allPlaced_cons.mp hLast
  obtain ⟨⟨hParsed', hWithin'⟩, -⟩ := Tree.allPlaced_cons.mp hOther
  obtain ⟨hCoversBefore, hCovers⟩ := List.forall_mem_append.mp h.covers
  obtain ⟨hApart, hPair, hBehind⟩ := List.pairwise_append.mp h.apart
  have hBefore : t.Before u := List.rel_of_pairwise_cons hPair (List.mem_singleton_self u)
  have hStop : t.span.stop < u.span.stop := Nat.lt_of_le_of_lt hBefore (hCovers u (by simp))
  have hStart : t.span.start < u.span.start := Nat.lt_of_lt_of_le (hCovers t (by simp)) hBefore
  have hSpan : t.span.start < u.span.stop := Nat.lt_trans hStart (hCovers u (by simp))
  have hNode : (Tree.node kind ⟨t.span.start, u.span.stop⟩ [t, u]).Parsed := by
    refine Tree.Parsed.node hSpan (Tree.allPlaced_cons.mpr ⟨⟨hParsed, ?_⟩, ?_⟩) (fun _ => hPair)
      (Tree.pairwise_leads_of_before hPair) (absurd · (Kind.ne_call hKind))
    · exact ⟨Nat.le_refl _, Nat.le_of_lt hStop⟩
    · exact Tree.allPlaced_cons.mpr
        ⟨⟨hParsed', Nat.le_of_lt hStart, Nat.le_refl _⟩, Tree.allPlaced_nil _⟩
  refine { h with
    placed := Tree.allPlaced_append.mpr ⟨hPlaced, ?_⟩
    covers := List.forall_mem_append.mpr ⟨hCoversBefore, List.forall_mem_singleton.mpr hSpan⟩
    apart := List.pairwise_append.mpr ⟨hApart, List.pairwise_singleton _ _, ?_⟩ }
  · exact Tree.allPlaced_cons.mpr ⟨⟨hNode, hWithin.1, hWithin'.2⟩, Tree.allPlaced_nil _⟩
  · intro v hv w hw
    obtain rfl := List.mem_singleton.mp hw
    exact hBehind v hv t List.mem_cons_self

/-- The next token may be passed over. -/
theorem advance (h : Reads moved c ts c') : Reads moved c ts c'.advanced := by
  have hStop := c'.token.start_le_stop
  have hNext := c'.token.stop_le_start_next
  have hLast : c'.lastStop ≤ c'.advanced.lastStop := Nat.le_trans h.sound.behind hStop
  exact { h with
    sound := ⟨c'.token.solid_next, hNext⟩
    lastStop_le := Nat.le_trans h.lastStop_le hLast
    start_le := Nat.le_trans h.start_le (Nat.le_trans hStop hNext)
    moved := fun hMoved => Nat.lt_of_lt_of_le (h.moved hMoved) hLast
    placed := h.placed.mono ⟨Nat.le_refl _, hLast⟩ }

/-- Passing over a token with some text reads that text. -/
theorem advance_moved (h : Reads moved c ts c') (hText : 0 < c'.token.lexeme.leastLength) :
    Reads true c ts c'.advanced := by
  refine { h.advance with moved := fun _ => ?_ }
  exact Nat.lt_of_le_of_lt h.start_le (h.sound.solid.start_lt_stop hText)

/-- The next token may be read anew, since it starts at the same place. -/
theorem replaceToken (h : Reads moved c ts c') {token : Token} (hToken : c'.token.Rereads token) :
    Reads moved c ts { c' with token } :=
  { h with
    sound := ⟨hToken.solid, by rw [hToken.start]; exact h.sound.behind⟩
    start_le := by rw [hToken.start]; exact h.start_le }

end Reads

end Script

end ComponentAnalysis
