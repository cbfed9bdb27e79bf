import ComponentAnalysis.Proofs.Macro.References

/-! Comparing the walk over scopes with module scoping: the nodes that the walk meets, the forms
that they may have for scoping, and when one scoping leaves open what another one does. -/
namespace ComponentAnalysis

namespace Tree

mutual

/-- The nodes that the walk meets, each with whether names at it are those of a `var` pattern. -/
def visited (inVarPattern : Bool) (t : Tree) : List (Bool × Tree) :=
  match t with
  | node (.reference name) s cs => [(inVarPattern, node (.reference name) s cs)]
  | node (.binding name) s cs => [(inVarPattern, node (.binding name) s cs)]
  | node (.declarator kind) s (pattern :: rest) =>
    (inVarPattern, node (.declarator kind) s (pattern :: rest)) ::
      (visited (kind = .var) pattern ++ visitedAll false rest)
  | node kind s cs =>
    (inVarPattern, node kind s cs) :: if kind.isErased then [] else visitedAll inVarPattern cs

def visitedAll (inVarPattern : Bool) (ts : List Tree) : List (Bool × Tree) :=
  match ts with
  | [] => []
  | t :: ts => visited inVarPattern t ++ visitedAll (inVarPattern && !holdsDeclarator t) ts

end

/-- The scoping of what stands in the block that a node is or has, as the walk reads it and as a
module does. -/
def blockParts (inVarPattern : Bool) : Tree → Option (Scoping × Scoping)
  | node .classDefinition _ cs | node .classExpression _ cs =>
    some ((walkedClass inVarPattern cs).2, (classScoping cs).2)
  | node .switchStatement _ (value :: cases) =>
    some (walkedAll (inVarPattern && !holdsDeclarator value) cases, scopingAll cases)
  | node kind _ cs =>
    if kind.isBlock ∨ kind = .enumBody then some (walkedAll inVarPattern cs, scopingAll cs)
    else none

/-- The forms that a node may have for scoping, with how it is read where its kind alone does not
tell. -/
inductive Form : Tree → Prop
  | reference (name : String) (s : Span) (cs : List Tree) : Form (node (.reference name) s cs)
  | binding (name : String) (s : Span) (cs : List Tree) : Form (node (.binding name) s cs)
  | declarator (kind : VariableKind) (s : Span) (pattern : Tree) (rest : List Tree) :
      Form (node (.declarator kind) s (pattern :: rest))
  | functionDeclaration (s : Span) (cs : List Tree) : Form (node (.function .declaration) s cs)
  | functionExpression (s : Span) (cs : List Tree) : Form (node (.function .expression) s cs)
  | arrow (s : Span) (cs : List Tree) : Form (node .arrow s cs)
  | classDefinition (s : Span) (cs : List Tree) : Form (node .classDefinition s cs)
  | classExpression (s : Span) (cs : List Tree) : Form (node .classExpression s cs)
  | staticBlock (s : Span) (cs : List Tree) : Form (node .staticBlock s cs)
  | switchStatement (s : Span) (value : Tree) (cases : List Tree) :
      Form (node .switchStatement s (value :: cases))
  | enumBody (s : Span) (cs : List Tree) : Form (node .enumBody s cs)
  | namespaceDeclaration (s : Span) (name : Tree) (rest : List Tree) :
      Form (node .namespaceDeclaration s (name :: rest))
  | typeOnly (kind : Kind) (s : Span) (cs : List Tree) (hKind : kind.isTypeOnly = true)
      (hScoping : scoping (node kind s cs) = {}) : Form (node kind s cs)
  | block (kind : Kind) (s : Span) (cs : List Tree)
      (hScoping : scoping (node kind s cs) = (scopingAll cs).block)
      (hWalked : ∀ b, walked b (node kind s cs) = (walkedAll b cs).block)
      (hVisited : ∀ b, visited b (node kind s cs) = (b, node kind s cs) :: visitedAll b cs)
      (hParts : ∀ b, blockParts b (node kind s cs) = some (walkedAll b cs, scopingAll cs)) :
      Form (node kind s cs)
  | plain (kind : Kind) (s : Span) (cs : List Tree)
      (hScoping : scoping (node kind s cs) = scopingAll cs)
      (hWalked : ∀ b, walked b (node kind s cs) = walkedAll b cs)
      (hVisited : ∀ b, visited b (node kind s cs) = (b, node kind s cs) :: visitedAll b cs) :
      Form (node kind s cs)

/-- Every node is read in one of these forms, so a comparison of two readings has one case for each
form and not for each kind. -/
theorem form (t : Tree) : t.Form := by
  obtain ⟨kind, s, cs⟩ := t
  cases kind with
  | reference name => exact .reference name s cs
  | binding name => exact .binding name s cs
  | arrow => exact .arrow s cs
  | classDefinition => exact .classDefinition s cs
  | classExpression => exact .classExpression s cs
  | staticBlock => exact .staticBlock s cs
  | enumBody => exact .enumBody s cs
  | function form =>
      cases form with
      | declaration => exact .functionDeclaration s cs
      | expression => exact .functionExpression s cs
  | declarator kind =>
      cases cs with
      | nil => exact .plain _ s [] rfl (fun _ => rfl) fun _ => rfl
      | cons pattern rest => exact .declarator kind s pattern rest
  | switchStatement =>
      cases cs with
      | nil => exact .plain _ s [] rfl (fun _ => rfl) fun _ => rfl
      | cons value cases => exact .switchStatement s value cases
  | namespaceDeclaration =>
      cases cs with
      | nil => exact .plain _ s [] rfl (fun _ => rfl) fun _ => rfl
      | cons name rest => exact .namespaceDeclaration s name rest
  | importDeclaration typeOnly | importNamed typeOnly =>
      cases typeOnly with
      | false => exact .plain _ s cs rfl (fun _ => rfl) fun _ => rfl
      | true => exact .typeOnly _ s cs rfl rfl
  | block | forStatement | forInStatement | forOfStatement | catchClause =>
      exact .block _ s cs rfl (fun _ => rfl) (fun _ => rfl) fun _ => rfl
  | _ =>
      first
        | exact .plain _ s cs rfl (fun _ => rfl) fun _ => rfl
        | exact .typeOnly _ s cs rfl rfl

/-- The walk meets the node that it starts at. -/
theorem mem_visited_self (t : Tree) (inVarPattern : Bool) :
    (inVarPattern, t) ∈ visited inVarPattern t := by
  unfold visited
  split <;> exact List.mem_cons_self

end Tree

namespace Scoping

/-- As far as one reference is concerned, what is open with one scoping is open with another, and
the first one binds all that the second binds. -/
structure Exposes (r : Reference) (a b : Scoping) : Prop where
  binds : b.Binds r.name → a.Binds r.name
  free : r ∈ a.free → r ∈ b.free ∨ a.Binds r.name

namespace Exposes

variable {r : Reference} {a b a' b' signature body : Scoping}

/-- A scoping leaves open what it leaves open. -/
theorem refl : Exposes r a a := ⟨id, Or.inl⟩

theorem declare_declareVar (names : List String) : Exposes r (.declare names) (.declareVar names) :=
  ⟨by simp [Binds, declare, declareVar], fun hr => nomatch hr⟩

/-- Parts in sequence may be compared one by one. -/
theorem append (h : Exposes r a b) (h' : Exposes r a' b') : Exposes r (a ++ a') (b ++ b') where
  binds := by
    rw [binds_append, binds_append]
    exact Or.imp h.binds h'.binds
  free := by
    intro hr
    rw [free_append, List.mem_append, binds_append]
    rcases List.mem_append.mp hr with hr | hr
    · exact (h.free hr).imp Or.inl Or.inl
    · exact (h'.free hr).imp Or.inr Or.inr

/-- Blocks may be compared by what is in them, as long as the names that leave the second one leave
the first one too. -/
theorem block (h : Exposes r a b) (hNames : r.name ∈ b.functionNames → r.name ∈ a.functionNames) :
    Exposes r a.block b.block where
  binds := by
    rw [binds_block, binds_block]
    exact hNames
  free := by
    rw [mem_free_block, mem_free_block, binds_block]
    rintro ⟨hr, hBlock⟩
    rcases Classical.em (r.name ∈ a.functionNames) with hFunction | hFunction
    · exact Or.inr hFunction
    · have hOpen : ¬ a.Binds r.name := not_or.mpr ⟨hBlock, hFunction⟩
      exact Or.inl ⟨(h.free hr).resolve_right hOpen, fun hb => hOpen (h.binds (Or.inl hb))⟩

/-- Functions may be compared by what is in them. Nothing leaves them, so the names need not reach
equally far. -/
theorem function (h : Exposes r a b) : Exposes r a.function b.function where
  binds := fun hb => absurd hb not_binds_function
  free := by
    rw [mem_free_function, mem_free_function]
    rintro ⟨hr, hOpen⟩
    exact Or.inl ⟨(h.free hr).resolve_right hOpen, fun hb => hOpen (h.binds hb)⟩

/-- It makes no difference that the body of a function is a block in it, unless the signature refers
to a name of the body. -/
theorem functionBody (h : Exposes r (signature ++ body) b)
    (hBody : r ∈ signature.free → r.name ∉ body.blockNames) :
    Exposes r (signature ++ body.block).function b.function where
  binds := fun hb => absurd hb not_binds_function
  free := by
    rw [mem_free_function, mem_free_function]
    rintro ⟨hr, hOpen⟩
    rw [binds_append, binds_block, not_or] at hOpen
    have hParts : r ∈ (signature ++ body).free ∧ r.name ∉ body.blockNames := by
      rcases List.mem_append.mp hr with hr | hr
      · exact ⟨List.mem_append_left _ hr, hBody hr⟩
      · rw [mem_free_block] at hr
        exact ⟨List.mem_append_right _ hr.1, hr.2⟩
    have hNone : ¬ (signature ++ body).Binds r.name := by
      rw [binds_append, not_or]
      exact ⟨hOpen.1, not_or.mpr ⟨hParts.2, hOpen.2⟩⟩
    exact Or.inl ⟨(h.free hParts.1).resolve_right hNone, fun hb => hNone (h.binds hb)⟩

/-- Code in the body of a function stands before the code behind it in the body. -/
theorem insert (h : Exposes r a b) (h' : Exposes r (signature ++ body) b') :
    Exposes r (signature ++ (a ++ body)) (b ++ b') where
  binds := by
    have hBoth := (h.append h').binds
    simp only [binds_append] at hBoth ⊢
    exact fun hb => or_left_comm.mp (hBoth hb)
  free := by
    have hBoth := (h.append h').free
    simp only [free_append, List.mem_append, binds_append] at hBoth ⊢
    exact fun hr => (hBoth (or_left_comm.mp hr)).imp id or_left_comm.mp

/-- Names that are hoisted bind no less than before. -/
theorem of_hoist (h : Exposes r a b) : Exposes r a.hoist b :=
  ⟨fun hb => binds_hoist.mpr (h.binds hb), fun hr => (h.free hr).imp id binds_hoist.mpr⟩

/-- Where nothing is open, only names have to be compared. -/
theorem of_nil (hFree : a.free = []) (hNone : ¬ b.Binds r.name) : Exposes r a b := by
  refine ⟨fun hb => absurd hb hNone, fun hr => ?_⟩
  rw [hFree] at hr
  cases hr

/-- The first scoping may bind further names. -/
theorem declare_append (h : Exposes r a b) (names : List String) :
    Exposes r (.declare names ++ a) b where
  binds := fun hb => binds_append.mpr (Or.inr (h.binds hb))
  free := fun hr => (h.free hr).imp id fun ha => binds_append.mpr (Or.inr ha)

/-- Names other than that of the reference make no difference to the first scoping. -/
theorem of_declare {names : List String} (h : Exposes r (.declare names ++ a) b)
    (hName : r.name ∉ names) : Exposes r a b := by
  have hBinds : (declare names ++ a).Binds r.name ↔ a.Binds r.name := by
    rw [binds_append, or_iff_right]
    simpa [Binds, declare] using hName
  exact ⟨fun hb => hBinds.mp (h.binds hb), fun hr => (h.free hr).imp id hBinds.mp⟩

/-- Nor do they to the second one. -/
theorem append_declare {names : List String} (h : Exposes r a b) (hName : r.name ∉ names) :
    Exposes r a (.declare names ++ b) where
  binds := by
    rw [binds_append, or_iff_right (by simpa [Binds, declare] using hName)]
    exact h.binds
  free := h.free

/-- Where the first scoping binds the name, nothing is left to be shown. -/
theorem of_binds (h : a.Binds r.name) : Exposes r a b := ⟨fun _ => h, fun _ => Or.inr h⟩

end Exposes

/-- As far as one reference is concerned, what is open with one scoping is open with another, and
the first one binds all that the second binds, and for as far. -/
structure Confines (r : Reference) (a b : Scoping) : Prop extends Exposes r a b where
  functionNames : r.name ∈ b.functionNames → r.name ∈ a.functionNames

namespace Confines

variable {r : Reference} {a b a' b' signature body : Scoping}

theorem refl : Confines r a a := ⟨Exposes.refl, id⟩

/-- Names of a function reach at least as far as those of a block. -/
theorem declareVar_declare (names : List String) :
    Confines r (.declareVar names) (.declare names) :=
  ⟨⟨by simp [Binds, declare, declareVar], fun hr => nomatch hr⟩, fun hName => nomatch hName⟩

/-- Parts in sequence may be compared one by one here, too. -/
theorem append (h : Confines r a b) (h' : Confines r a' b') : Confines r (a ++ a') (b ++ b') where
  toExposes := h.toExposes.append h'.toExposes
  functionNames := by
    simp only [functionNames_append, List.mem_append]
    exact Or.imp h.functionNames h'.functionNames

/-- Blocks need no further condition, as the names that leave them are compared already. -/
theorem block (h : Confines r a b) : Confines r a.block b.block :=
  ⟨h.toExposes.block h.functionNames, h.functionNames⟩

theorem function (h : Confines r a b) : Confines r a.function b.function :=
  ⟨h.toExposes.function, fun hName => nomatch hName⟩

/-- To take the body as a block of its own makes its names reach less far. -/
theorem bodyBlock (h : Confines r a (signature ++ body)) :
    Confines r a (signature ++ body.block) where
  binds := by
    intro hb
    rw [binds_append, binds_block] at hb
    exact h.binds (binds_append.mpr (hb.imp id Or.inr))
  free := by
    intro hr
    by_cases hBinds : a.Binds r.name
    · exact Or.inr hBinds
    · have hBody : r.name ∉ body.blockNames :=
        fun hName => hBinds (h.binds (binds_append.mpr (Or.inr (Or.inl hName))))
      have hFree := List.mem_append.mp ((h.free hr).resolve_right hBinds)
      exact Or.inl (List.mem_append.mpr
        (hFree.imp id fun hFree => mem_free_block.mpr ⟨hFree, hBody⟩))
  functionNames := h.functionNames

/-- Code in the body of a function stands before the code behind it in the body. -/
theorem insert (h : Confines r a b) (h' : Confines r a' (signature ++ body)) :
    Confines r (a ++ a') (signature ++ (b ++ body)) where
  binds := by
    have hBoth := (h.append h').binds
    simp only [binds_append] at hBoth ⊢
    exact fun hb => hBoth (or_left_comm.mp hb)
  free := by
    have hBoth := (h.append h').free
    simp only [free_append, List.mem_append, binds_append] at hBoth ⊢
    exact fun hr => (hBoth hr).imp or_left_comm.mp id
  functionNames := by
    have hBoth := (h.append h').functionNames
    simp only [functionNames_append, List.mem_append] at hBoth ⊢
    exact fun hName => hBoth (or_left_comm.mp hName)

/-- Hoisting in the second scoping needs the first one to bind the name in the function around. -/
theorem hoist (h : Confines r a b) (hNames : b.Binds r.name → r.name ∈ a.functionNames) :
    Confines r a b.hoist where
  binds := fun hb => h.binds (binds_hoist.mp hb)
  free := h.free
  functionNames := fun hName => hNames (binds_hoist.mp (Or.inr hName))

/-- The second scoping may bind fewer names. -/
theorem of_declare_append {names : List String} (h : Confines r a (.declare names ++ b)) :
    Confines r a b :=
  ⟨⟨fun hb => h.binds (binds_append.mpr (Or.inr hb)), h.free⟩, h.functionNames⟩

/-- Names declared in a block that bind none of its references. -/
theorem declare_block {names : List String} (h : Confines r a b)
    (hNames : r.name ∈ names → r ∉ b.free) : Confines r a.block (.declare names ++ b).block where
  binds := by
    rw [binds_block, binds_block]
    exact h.functionNames
  free := by
    rw [mem_free_block, mem_free_block, binds_block]
    rintro ⟨hr, hBlock⟩
    by_cases hFunction : r.name ∈ a.functionNames
    · exact Or.inr hFunction
    · have hOpen : ¬ a.Binds r.name := not_or.mpr ⟨hBlock, hFunction⟩
      have hFree : r ∈ b.free := (h.free hr).resolve_right hOpen
      refine Or.inl ⟨hFree, fun hName => ?_⟩
      rcases List.mem_append.mp hName with hName | hName
      · exact hNames hName hFree
      · exact hOpen (h.binds (Or.inl hName))
  functionNames := h.functionNames

end Confines

end Scoping

end ComponentAnalysis
