import ComponentAnalysis.Proofs.Tree.Numbering

/-! The numbering of trees as one walk builds it. The walk knows the nodes it is in as a stack of
numbers. A node that it enters gets the next number, and its number is put to the children of the
innermost node of the stack, or to the roots if the stack is empty. -/
namespace ComponentAnalysis

/-- A numbering that is being built, and the numbers of the nodes that the walk is in, the innermost
first. -/
structure IndexBuilder where
  index : TreeIndex := ⟨[], []⟩
  stack : List Nat := []
  deriving DecidableEq, Repr

namespace IndexBuilder

open ComponentAnalysis.Tree

def addChildren (new : List Nat) (entry : IndexEntry) : IndexEntry :=
  { entry with children := entry.children ++ new }

/-- Enter a node. There is no result if the node around it has no entry. -/
def enter? (builder : IndexBuilder) (span : Span) : Option IndexBuilder :=
  let entries := builder.index.entries
  let number := entries.length
  match builder.stack with
  | [] => some ⟨⟨entries ++ [⟨span, none, []⟩], builder.index.roots ++ [number]⟩, [number]⟩
  | parent :: above =>
    if parent < entries.length then
      some ⟨⟨entries.modify parent (addChildren [number]) ++ [⟨span, some parent, []⟩],
        builder.index.roots⟩, number :: parent :: above⟩
    else none

/-- Leave the node that was entered last. -/
def leave (builder : IndexBuilder) : IndexBuilder := { builder with stack := builder.stack.tail }

mutual

/-- Walk over a tree: enter it, walk over the nodes below it, leave it. -/
def visit? : Tree → IndexBuilder → Option IndexBuilder
  | node _ span children, builder =>
    ((builder.enter? span).bind (visitAll? children)).map leave

def visitAll? : List Tree → IndexBuilder → Option IndexBuilder
  | [], builder => some builder
  | t :: ts, builder => (visit? t builder).bind (visitAll? ts)

end

/-! Changes of one entry of a table. -/

theorem modify_append_of_lt {α : Type} {i : Nat} {front : List α} (h : i < front.length)
    (f : α → α) (back : List α) : (front ++ back).modify i f = front.modify i f ++ back := by
  induction front generalizing i with
  | nil => cases h
  | cons a front ih =>
      cases i with
      | zero => rfl
      | succ i =>
          rw [List.cons_append, List.modify_succ_cons, List.modify_succ_cons,
            ih (Nat.lt_of_succ_lt_succ h), List.cons_append]

theorem modify_append_singleton {α : Type} (front : List α) (f : α → α) (a : α) :
    (front ++ [a]).modify front.length f = front ++ [f a] := by
  induction front with
  | nil => rfl
  | cons b front ih =>
      rw [List.cons_append, List.length_cons, List.modify_succ_cons, ih, List.cons_append]

/-- Adding no children changes nothing. -/
theorem modify_addChildren_nil (entries : List IndexEntry) (parent : Nat) :
    entries.modify parent (addChildren []) = entries := by
  have hId : addChildren [] = id := by
    funext entry
    simp [addChildren]
  rw [hId, List.modify_id]

/-- Children may be added one list after the other. -/
theorem modify_modify_addChildren (entries : List IndexEntry) (parent : Nat)
    (new more : List Nat) :
    (entries.modify parent (addChildren new)).modify parent (addChildren more) =
      entries.modify parent (addChildren (new ++ more)) := by
  rw [List.modify_modify_eq]
  congr 1
  funext entry
  simp [addChildren]

/-! What a walk leaves behind. -/

section

variable {entries : List IndexEntry} {roots above : List Nat} {parent : Nat}

/-- If each of several trees is listed behind the entries so far, and its number is put to the
children of the node around it, then so are all of them together. -/
theorem visitAll?_inside_of (ts : List Tree)
    (ih : ∀ t ∈ ts, ∀ {entries : List IndexEntry}, parent < entries.length →
      visit? t ⟨⟨entries, roots⟩, parent :: above⟩ =
        some ⟨⟨entries.modify parent (addChildren [entries.length]) ++
          Tree.entries entries.length (some parent) t, roots⟩, parent :: above⟩)
    (hParent : parent < entries.length) :
    visitAll? ts ⟨⟨entries, roots⟩, parent :: above⟩ =
      some ⟨⟨entries.modify parent (addChildren (numbers entries.length ts)) ++
        entriesAll entries.length (some parent) ts, roots⟩, parent :: above⟩ := by
  induction ts generalizing entries with
  | nil => rw [visitAll?, numbers, modify_addChildren_nil, entriesAll, List.append_nil]
  | cons t ts ihTail =>
      have hLength : (entries.modify parent (addChildren [entries.length]) ++
          Tree.entries entries.length (some parent) t).length = entries.length + t.size := by
        rw [List.length_append, List.length_modify, length_entries]
      have hInside : parent < (entries.modify parent (addChildren [entries.length])).length := by
        rwa [List.length_modify]
      rw [visitAll?, ih t List.mem_cons_self hParent, Option.bind_some,
        ihTail (fun u hu => ih u (List.mem_cons_of_mem t hu)) (by omega), hLength,
        modify_append_of_lt hInside, modify_modify_addChildren, numbers, entriesAll,
        List.append_assoc]
      rfl

/-- Behind the entry of a node, the walk over the nodes below it completes its block. -/
theorem visitAll?_below (entries : List IndexEntry) (above : List Nat) (children : List Tree)
    (span : Span) (around : Option Nat)
    (ih : ∀ t ∈ children, ∀ {parent : Nat} {above : List Nat} {entries : List IndexEntry},
      parent < entries.length →
      visit? t ⟨⟨entries, roots⟩, parent :: above⟩ =
        some ⟨⟨entries.modify parent (addChildren [entries.length]) ++
          Tree.entries entries.length (some parent) t, roots⟩, parent :: above⟩) :
    visitAll? children ⟨⟨entries ++ [⟨span, around, []⟩], roots⟩, entries.length :: above⟩ =
      some ⟨⟨entries ++ (⟨span, around, numbers (entries.length + 1) children⟩ ::
        entriesAll (entries.length + 1) (some entries.length) children), roots⟩,
        entries.length :: above⟩ := by
  rw [visitAll?_inside_of children (fun t ht => ih t ht) (by simp), modify_append_singleton,
    List.length_append, List.length_singleton, List.append_assoc]
  rfl

/-- Inside a node, a tree is listed behind the entries so far, and its number is put to the children
of the node. -/
theorem visit?_inside (t : Tree) (hParent : parent < entries.length) :
    visit? t ⟨⟨entries, roots⟩, parent :: above⟩ =
      some ⟨⟨entries.modify parent (addChildren [entries.length]) ++
        Tree.entries entries.length (some parent) t, roots⟩, parent :: above⟩ := by
  induction t generalizing parent above entries with
  | node kind span children ih =>
      have hLength : (entries.modify parent (addChildren [entries.length])).length =
          entries.length := List.length_modify _ _ _
      have hBelow := visitAll?_below (entries.modify parent (addChildren [entries.length]))
        (parent :: above) children span (some parent) fun t ht => ih t ht
      rw [hLength] at hBelow
      rw [visit?, enter?]
      dsimp only
      rw [if_pos hParent, Option.bind_some, hBelow, Tree.entries]
      rfl

/-- Outside of all nodes, a tree is listed behind the entries so far, and its number is put to the
roots. -/
theorem visit?_outside (t : Tree) :
    visit? t ⟨⟨entries, roots⟩, []⟩ =
      some ⟨⟨entries ++ Tree.entries entries.length none t, roots ++ [entries.length]⟩, []⟩ := by
  cases t with
  | node kind span children =>
      rw [visit?, enter?]
      dsimp only
      rw [Option.bind_some, visitAll?_below _ _ children span none fun t _ => visit?_inside t,
        Tree.entries]
      rfl

/-- Outside of all nodes, the trees of a walk become roots. -/
theorem visitAll?_outside (ts : List Tree) :
    visitAll? ts ⟨⟨entries, roots⟩, []⟩ =
      some ⟨⟨entries ++ entriesAll entries.length none ts, roots ++ numbers entries.length ts⟩,
        []⟩ := by
  induction ts generalizing entries roots with
  | nil => rw [visitAll?, numbers, entriesAll, List.append_nil, List.append_nil]
  | cons t ts ih =>
      rw [visitAll?, visit?_outside, Option.bind_some, ih, List.length_append, length_entries,
        entriesAll, numbers, List.append_assoc, List.append_assoc]
      rfl

end

/-- The walk over several trees leaves their numbering, and it is in no node any more. -/
theorem visitAll?_eq_ofTrees (ts : List Tree) :
    visitAll? ts {} = some ⟨TreeIndex.ofTrees ts, []⟩ :=
  visitAll?_outside ts

end IndexBuilder

end ComponentAnalysis
