import ComponentAnalysis.Proofs.Macro.Scoping
import Mathlib.Data.List.Find

/-! The walk over scopes, read off the syntax from the inside out. The numbered scopes of the walk
and its order give way to what each node leaves open and declares; the two readings find the same
free references. -/
namespace ComponentAnalysis

/-- A node refers to the name of a reference, at its place. -/
def Reference.At (r : Reference) (n : Tree) : Prop := n.kind = .reference r.name ∧ n.span = r.span

namespace ScopeWalk

/-- The scope with a number declares a name. -/
def DeclaresAt (w : ScopeWalk) (id : Nat) (name : String) : Prop :=
  ∃ scope, w.scopes[id]? = some scope ∧ name ∈ scope.names

def holdsVarAt (w : ScopeWalk) (id : Nat) : Bool :=
  ((w.scopes[id]?).map LexicalScope.holdsVar).getD false

/-- The open scopes exist. -/
def Sound (w : ScopeWalk) : Prop := ∀ id ∈ w.chain, id < w.scopes.length

/-- A name that a piece of code declares for the code around it lands in a scope. -/
def LandsAt (s : Scoping) (w : ScopeWalk) (id : Nat) (name : String) : Prop :=
  (w.target? false = some id ∧ name ∈ s.blockNames) ∨
    (w.target? true = some id ∧ name ∈ s.functionNames)

/-- Two walks declare the same names in the scopes that are new in the second of three walks. -/
def AgreesOnNew (w w' final : ScopeWalk) : Prop :=
  ∀ id, w.scopes.length ≤ id → id < w'.scopes.length →
    ∀ name, final.DeclaresAt id name ↔ w'.DeclaresAt id name

/-- Some of the recorded references, those that no scope open at them declares in the end. -/
def unresolved (final : ScopeWalk) (references : List (Reference × List Nat)) : List Reference :=
  (references.filter fun (r, chain) => !final.declares chain r.name).map Prod.fst

/-- A walk goes on over code with some scoping. It leaves the open scopes as they are, with the
names of the code declared in them, and it records the references of the code so that, in the end,
those are resolved which the code binds or which a scope open around it declares. `resets` says
whether a declarator on the way has ended the pattern around. -/
structure Walks (s : Scoping) (resets : Bool) (w w' : ScopeWalk) : Prop where
  chain : w'.chain = w.chain
  length_le : w.scopes.length ≤ w'.scopes.length
  inVarPattern : w'.inVarPattern = (w.inVarPattern && !resets)
  holdsVarAt : ∀ id < w.scopes.length, w'.holdsVarAt id = w.holdsVarAt id
  declaresAt : ∀ id < w.scopes.length, ∀ name,
    w'.DeclaresAt id name ↔ w.DeclaresAt id name ∨ LandsAt s w id name
  references : ∃ new, w'.references = w.references ++ new ∧ ∀ final, AgreesOnNew w w' final →
    final.unresolved new = s.free.filter fun r => !final.declares w.chain r.name

section

variable {s s' : Scoping} {resets resets' : Bool} {w w' w'' final : ScopeWalk} {name : String}

/-- A chain declares what one of its scopes declares. -/
theorem declares_iff {chain : List Nat} :
    w.declares chain name = true ↔ ∃ id ∈ chain, w.DeclaresAt id name := by
  rw [declares, List.any_eq_true]
  apply exists_congr
  intro id
  apply and_congr_right
  intro _
  cases hScope : w.scopes[id]? <;> simp [DeclaresAt, hScope]

/-- Names are declared in open scopes only. -/
theorem mem_chain_of_target? {toVarScope : Bool} {id : Nat}
    (h : w.target? toVarScope = some id) : id ∈ w.chain := by
  unfold target? at h
  split at h
  · exact List.mem_of_find?_eq_some h
  · exact List.mem_of_head? h

/-- Nothing lands in a scope that does not exist yet. -/
theorem LandsAt.lt {id : Nat} (h : LandsAt s w id name) (hSound : w.Sound) :
    id < w.scopes.length := by
  rcases h with ⟨hTarget, -⟩ | ⟨hTarget, -⟩ <;> exact hSound id (mem_chain_of_target? hTarget)

/-- The target of declarations depends on the open scopes only. -/
theorem target?_congr (hChain : w'.chain = w.chain)
    (hHolds : ∀ id ∈ w.chain, w'.holdsVarAt id = w.holdsVarAt id) (toVarScope : Bool) :
    w'.target? toVarScope = w.target? toVarScope := by
  unfold target?
  rw [hChain]
  split
  · exact List.find?_congr hHolds
  · rfl

/-- A walk over code keeps the open scopes in existence. -/
theorem Walks.sound (h : Walks s resets w w') (hSound : w.Sound) : w'.Sound := by
  intro id hid
  rw [h.chain] at hid
  exact Nat.lt_of_lt_of_le (hSound id hid) h.length_le

/-- Where names land is the same before and after code that has been walked. -/
theorem Walks.landsAt (h : Walks s resets w w') (hSound : w.Sound) (id : Nat) :
    LandsAt s' w' id name ↔ LandsAt s' w id name := by
  have hTarget := target?_congr h.chain fun id hid => h.holdsVarAt id (hSound id hid)
  rw [LandsAt, LandsAt, hTarget, hTarget]

/-- Whether a reference is resolved does not depend on the other ones. -/
theorem unresolved_append (references references' : List (Reference × List Nat)) :
    final.unresolved (references ++ references') =
      final.unresolved references ++ final.unresolved references' := by
  rw [unresolved, List.filter_append, List.map_append]
  rfl

/-- Of two pieces of code, the names of both land around them. -/
theorem landsAt_append {id : Nat} :
    LandsAt (s ++ s') w id name ↔ LandsAt s w id name ∨ LandsAt s' w id name := by
  simp only [LandsAt, Scoping.blockNames_append, Scoping.functionNames_append, List.mem_append,
    and_or_left]
  exact or_or_or_comm

/-- Standing still is a walk over no code. -/
theorem Walks.refl : Walks {} false w w where
  chain := rfl
  length_le := Nat.le_refl _
  inVarPattern := by simp
  holdsVarAt := fun _ _ => rfl
  declaresAt := by simp [LandsAt]
  references := ⟨[], by simp, fun _ _ => rfl⟩

/-- A walk over one piece of code and then another is one over both. Names of the second piece
resolve references of the first as well, since they are looked up in the end. -/
theorem Walks.trans (h : Walks s resets w w') (h' : Walks s' resets' w' w'') (hSound : w.Sound) :
    Walks (s ++ s') (resets || resets') w w'' where
  chain := h'.chain.trans h.chain
  length_le := Nat.le_trans h.length_le h'.length_le
  inVarPattern := by
    rw [h'.inVarPattern, h.inVarPattern, Bool.not_or, Bool.and_assoc]
  holdsVarAt := by
    intro id hid
    exact (h'.holdsVarAt id (Nat.lt_of_lt_of_le hid h.length_le)).trans (h.holdsVarAt id hid)
  declaresAt := by
    intro id hid name
    rw [h'.declaresAt id (Nat.lt_of_lt_of_le hid h.length_le), h.declaresAt id hid,
      h.landsAt hSound, landsAt_append, or_assoc]
  references := by
    obtain ⟨new, hNew, hResolved⟩ := h.references
    obtain ⟨new', hNew', hResolved'⟩ := h'.references
    refine ⟨new ++ new', by rw [hNew', hNew, List.append_assoc], fun final hFinal => ?_⟩
    -- The second walk declares nothing in the scopes that the first one has opened and closed.
    have hFirst : AgreesOnNew w w' final := by
      intro id hLow hHigh name
      have hHigh' := Nat.lt_of_lt_of_le hHigh h'.length_le
      rw [hFinal id hLow hHigh', h'.declaresAt id hHigh, h.landsAt hSound]
      exact or_iff_left fun hLands => Nat.not_lt.mpr hLow (hLands.lt hSound)
    have hSecond : AgreesOnNew w' w'' final :=
      fun id hLow hHigh => hFinal id (Nat.le_trans h.length_le hLow) hHigh
    rw [unresolved_append, hResolved final hFirst, hResolved' final hSecond, h.chain,
      Scoping.free_append, List.filter_append]

/-- Opening a scope leaves the older ones as they are. -/
theorem holdsVarAt_enter (holdsVar : Bool) {id : Nat} (h : id < w.scopes.length) :
    (w.enter holdsVar).holdsVarAt id = w.holdsVarAt id := by
  simp only [ScopeWalk.holdsVarAt, enter, List.getElem?_append_left h]

/-- Opening a scope adds no declaration to the older ones. -/
theorem declaresAt_enter (holdsVar : Bool) {id : Nat} (h : id < w.scopes.length) :
    (w.enter holdsVar).DeclaresAt id name ↔ w.DeclaresAt id name := by
  simp only [DeclaresAt, enter, List.getElem?_append_left h]

/-- A scope starts without declarations. -/
theorem not_declaresAt_entered (holdsVar : Bool) :
    ¬ (w.enter holdsVar).DeclaresAt w.scopes.length name := by
  simp [DeclaresAt, enter]

/-- The new scope of a walk exists as those before it do. -/
theorem sound_enter (hSound : w.Sound) (holdsVar : Bool) : (w.enter holdsVar).Sound := by
  intro id hid
  simp only [enter, List.length_append, List.length_singleton]
  rcases List.mem_cons.mp hid with rfl | hid
  · exact Nat.lt_succ_self _
  · exact Nat.lt_succ_of_lt (hSound id hid)

/-- Names of blocks are declared in the scope just opened. -/
@[simp] theorem target?_false_enter (holdsVar : Bool) :
    (w.enter holdsVar).target? false = some w.scopes.length := rfl

/-- Names of functions pass a scope that holds no `var`. -/
theorem target?_enter (hSound : w.Sound) (holdsVar : Bool) :
    (w.enter holdsVar).target? true =
      if holdsVar then some w.scopes.length else w.target? true := by
  have hHere : (w.enter holdsVar).holdsVarAt w.scopes.length = holdsVar := by
    simp [ScopeWalk.holdsVarAt, enter]
  have hAround : ∀ id ∈ w.chain, (w.enter holdsVar).holdsVarAt id = w.holdsVarAt id :=
    fun id hid => holdsVarAt_enter holdsVar (hSound id hid)
  show (w.scopes.length :: w.chain).find? (w.enter holdsVar).holdsVarAt =
    if holdsVar then some w.scopes.length else w.chain.find? w.holdsVarAt
  rw [List.find?_cons, hHere, List.find?_congr hAround]
  cases holdsVar <;> rfl

/-- The names that land in the scope just opened: those declared in the block around and, if the
scope holds `var`, those declared in the function around. -/
theorem landsAt_entered (hSound : w.Sound) (holdsVar : Bool) :
    LandsAt s (w.enter holdsVar) w.scopes.length name ↔
      name ∈ s.blockNames ∨ (holdsVar = true ∧ name ∈ s.functionNames) := by
  have hNotAround : w.target? true ≠ some w.scopes.length :=
    fun h => Nat.lt_irrefl _ (hSound _ (mem_chain_of_target? h))
  rw [LandsAt, target?_enter hSound]
  cases holdsVar <;> simp [hNotAround]

/-- What lands further out is what the code leaves to the code around its scope. -/
theorem landsAt_around (hSound : w.Sound) (holdsVar : Bool) {id : Nat} (h : id < w.scopes.length) :
    LandsAt s (w.enter holdsVar) id name ↔ LandsAt (s.close holdsVar) w id name := by
  have hOther : w.scopes.length ≠ id := (Nat.ne_of_lt h).symm
  rw [LandsAt, target?_enter hSound]
  cases holdsVar <;> simp [LandsAt, Scoping.close, Scoping.function, hOther]

/-- A chain is searched from its innermost scope outwards. -/
theorem declares_cons {id : Nat} {chain : List Nat} :
    final.declares (id :: chain) name = true ↔
      final.DeclaresAt id name ∨ final.declares chain name = true := by
  simp only [declares_iff, List.mem_cons, or_and_right, exists_or, exists_eq_left]

/-- Which references a scope resolves that stands closed behind the code in it. -/
theorem Walks.unresolved_close {holdsVar : Bool} (h : Walks s resets (w.enter holdsVar) w')
    (hSound : w.Sound) (hFinal : AgreesOnNew w w' final) :
    (s.free.filter fun r => !final.declares (w.enter holdsVar).chain r.name) =
      (s.close holdsVar).free.filter fun r => !final.declares w.chain r.name := by
  have hOpened : w.scopes.length < (w.enter holdsVar).scopes.length := by simp [enter]
  have hHere : ∀ name, final.DeclaresAt w.scopes.length name ↔
      name ∈ s.blockNames ∨ (holdsVar = true ∧ name ∈ s.functionNames) := by
    intro name
    rw [hFinal _ (Nat.le_refl _) (Nat.lt_of_lt_of_le hOpened h.length_le),
      h.declaresAt _ hOpened, landsAt_entered hSound]
    exact or_iff_right (not_declaresAt_entered holdsVar)
  have hChain : ∀ name, final.declares (w.enter holdsVar).chain name = true ↔
      (name ∈ s.blockNames ∨ (holdsVar = true ∧ name ∈ s.functionNames)) ∨
        final.declares w.chain name = true :=
    fun name => declares_cons.trans (or_congr_left (hHere name))
  have hClose : (s.close holdsVar).free = s.free.filter fun r =>
      !decide (r.name ∈ s.blockNames ∨ (holdsVar = true ∧ r.name ∈ s.functionNames)) := by
    cases holdsVar <;> simp [Scoping.close, Scoping.block, Scoping.function]
  rw [hClose, List.filter_filter]
  apply List.filter_congr
  intro r _
  rw [Bool.eq_iff_iff, Bool.and_eq_true, Bool.not_eq_true', Bool.not_eq_true',
    Bool.not_eq_true', ← Bool.not_eq_true, hChain, not_or, decide_eq_false_iff_not,
    Bool.not_eq_true, and_comm]

/-- A walk inside a scope is, seen from around it, a walk over the same code closed as a block or as
a function. -/
theorem Walks.close {holdsVar : Bool} (h : Walks s resets (w.enter holdsVar) w')
    (hSound : w.Sound) : Walks (s.close holdsVar) resets w w'.leave where
  chain := by rw [leave, h.chain]; rfl
  length_le := Nat.le_trans (by simp [enter]) h.length_le
  inVarPattern := h.inVarPattern
  holdsVarAt := by
    intro id hid
    have hOpened : id < (w.enter holdsVar).scopes.length := by simp [enter]; omega
    exact (h.holdsVarAt id hOpened).trans (holdsVarAt_enter holdsVar hid)
  declaresAt := by
    intro id hid name
    have hOpened : id < (w.enter holdsVar).scopes.length := by simp [enter]; omega
    exact (h.declaresAt id hOpened name).trans
      (or_congr (declaresAt_enter holdsVar hid) (landsAt_around hSound holdsVar hid))
  references := by
    obtain ⟨new, hNew, hResolved⟩ := h.references
    refine ⟨new, hNew, fun final hFinal => ?_⟩
    have hInside : AgreesOnNew (w.enter holdsVar) w' final := by
      intro id hLow hHigh
      exact hFinal id (Nat.le_trans (by simp [enter]) hLow) hHigh
    rw [hResolved final hInside, h.unresolved_close hSound hFinal]

/-- Recording a reference is a walk over that reference. -/
theorem walks_refer (r : Reference) : Walks (.use r) false w (w.refer r) where
  chain := rfl
  length_le := Nat.le_refl _
  inVarPattern := by simp [refer]
  holdsVarAt := fun _ _ => rfl
  declaresAt := by
    intro id _ name
    simp [LandsAt, Scoping.use, DeclaresAt, refer]
  references := by
    refine ⟨[(r, w.chain)], rfl, fun final _ => ?_⟩
    simp only [unresolved, Scoping.use, List.filter_cons, List.filter_nil]
    split <;> rfl

/-- A single name lands in its target and nowhere else. -/
theorem landsAt_declareIn {toVarScope : Bool} {id : Nat} {name' : String} :
    LandsAt (.declareIn toVarScope name) w id name' ↔
      w.target? toVarScope = some id ∧ name' = name := by
  cases toVarScope <;>
    simp [LandsAt, Scoping.declareIn, Scoping.declare, Scoping.declareVar]

/-- Declaring a name changes one scope. -/
theorem getElem?_scopes_declare {target : Nat} {toVarScope : Bool}
    (h : w.target? toVarScope = some target) (id : Nat) :
    (w.declare name toVarScope).scopes[id]? = (w.scopes[id]?).map fun scope =>
      if target = id then { scope with names := name :: scope.names } else scope := by
  simp only [declare, h, List.getElem?_modify]
  rfl

/-- Among the scopes there are, declaring a name adds it to its target only. -/
theorem declaresAt_declare {toVarScope : Bool} {id : Nat} {name' : String}
    (h : id < w.scopes.length) : (w.declare name toVarScope).DeclaresAt id name' ↔
      w.DeclaresAt id name' ∨ (w.target? toVarScope = some id ∧ name' = name) := by
  cases hTarget : w.target? toVarScope with
  | none => simp [declare, hTarget]
  | some target =>
      simp only [DeclaresAt, getElem?_scopes_declare hTarget, List.getElem?_eq_getElem h,
        Option.map_some, Option.some.injEq, exists_eq_left']
      split
      · rename_i hHere
        simp [hHere, or_comm]
      · rename_i hOther
        simp [hOther]

/-- Declaring a name is a walk over that declaration. -/
theorem walks_declare (name : String) (toVarScope : Bool) :
    Walks (.declareIn toVarScope name) false w (w.declare name toVarScope) := by
  have hFrame : (w.declare name toVarScope).chain = w.chain ∧
      (w.declare name toVarScope).scopes.length = w.scopes.length ∧
      (w.declare name toVarScope).inVarPattern = w.inVarPattern ∧
      (w.declare name toVarScope).references = w.references := by
    unfold declare
    split <;> simp
  obtain ⟨hChain, hLength, hFlag, hReferences⟩ := hFrame
  refine ⟨hChain, hLength.ge, by simp [hFlag], fun id _ => ?_, fun id hid name' => ?_, ?_⟩
  · cases hTarget : w.target? toVarScope with
    | none => simp [declare, hTarget]
    | some target =>
        rw [ScopeWalk.holdsVarAt, getElem?_scopes_declare hTarget, ScopeWalk.holdsVarAt,
          Option.map_map]
        congr 2
        funext scope
        simp only [Function.comp_apply]
        split <;> rfl
  · rw [declaresAt_declare hid, landsAt_declareIn]
  · refine ⟨[], by simp [hReferences], fun final _ => ?_⟩
    cases toVarScope <;> rfl

/-- So is hoisting the name of a function, should it have one. -/
theorem walks_declareName (name? : Option String) :
    Walks (.declareVar name?.toList) false w
      (match name? with
        | some name => w.declare name true
        | none => w) := by
  cases name? with
  | none => exact Walks.refl
  | some name => exact walks_declare name true

/-- Whether names belong to a `var` pattern matters only to the names to come. -/
theorem Walks.ofPattern {inVarPattern : Bool}
    (h : Walks s resets { w with inVarPattern := inVarPattern } w') :
    Walks s true w { w' with inVarPattern := false } :=
  ⟨h.chain, h.length_le, by simp, h.holdsVarAt, h.declaresAt, h.references⟩

end

end ScopeWalk

namespace Tree

mutual

/-- Whether a walk over a node meets a declarator. -/
def holdsDeclarator (t : Tree) : Bool :=
  match t with
  | node (.declarator _) _ (_ :: _) => true
  | node (.reference _) _ _ | node (.binding _) _ _ => false
  | node kind _ cs => !kind.isErased && holdsDeclaratorAll cs

def holdsDeclaratorAll (ts : List Tree) : Bool :=
  match ts with
  | [] => false
  | t :: ts => holdsDeclarator t || holdsDeclaratorAll ts

end

mutual

/-- The scoping of a node as the walk has it. Names are those of a `var` pattern from the beginning
of one to the first declarator in it, or to its end. -/
def walked (inVarPattern : Bool) (t : Tree) : Scoping :=
  match t with
  | node (.reference name) s _ => .use ⟨name, s⟩
  | node (.binding name) _ _ => .declareIn inVarPattern name
  | node (.declarator kind) _ (pattern :: rest) =>
    walked (kind = .var) pattern ++ walkedAll false rest
  | node (.function .declaration) _ cs =>
    .declareVar (cs.findSome? bindingName?).toList ++ (walkedAll inVarPattern cs).function
  | node .classDefinition _ cs | node .classExpression _ cs =>
    (walkedClass inVarPattern cs).1 ++ (walkedClass inVarPattern cs).2.block
  | node .switchStatement _ (value :: cases) =>
    walked inVarPattern value ++ (walkedAll (inVarPattern && !holdsDeclarator value) cases).block
  | node .interface _ (name :: rest) =>
    walked inVarPattern name ++ (walkedAll (inVarPattern && !holdsDeclarator name) rest).block
  | node .namespaceDeclaration _ (name :: rest) =>
    walked inVarPattern name ++ (walkedAll (inVarPattern && !holdsDeclarator name) rest).function
  | node kind _ cs =>
    if kind.isErased then {}
    else match kind.opensScope with
      | some holdsVar => (walkedAll inVarPattern cs).close holdsVar
      | none => walkedAll inVarPattern cs

def walkedAll (inVarPattern : Bool) (ts : List Tree) : Scoping :=
  match ts with
  | [] => {}
  | t :: ts => walked inVarPattern t ++ walkedAll (inVarPattern && !holdsDeclarator t) ts

/-- The scoping of what the walk finds outside of the scope of a class and of what it finds in it.
-/
def walkedClass (inVarPattern : Bool) (ts : List Tree) : Scoping × Scoping :=
  match ts with
  | [] => ({}, {})
  | node .decorator s cs :: ts =>
    let around := walkedClass (inVarPattern && !holdsDeclarator (node .decorator s cs)) ts
    (walked inVarPattern (node .decorator s cs) ++ around.1, around.2)
  | node (.binding name) _ _ :: ts =>
    (.declareIn inVarPattern name ++ (walkedClass inVarPattern ts).1,
      (walkedClass inVarPattern ts).2)
  | t :: ts => ({}, walked inVarPattern t ++ walkedAll (inVarPattern && !holdsDeclarator t) ts)

end

open ScopeWalk

section

variable {w : ScopeWalk} (ts : List Tree) (hEach : ∀ t ∈ ts, ∀ {w : ScopeWalk}, w.Sound →
  Walks (walked w.inVarPattern t) (holdsDeclarator t) w (scopeWalk t w))

include hEach

/-- Trees in sequence are walked if each of them is. -/
theorem scopeWalkAll_walks (hSound : w.Sound) :
    Walks (walkedAll w.inVarPattern ts) (holdsDeclaratorAll ts) w (scopeWalkAll ts w) := by
  induction ts generalizing w with
  | nil => exact Walks.refl
  | cons t ts ih =>
      have hHead := hEach t List.mem_cons_self hSound
      have hTail := ih (fun u hu => hEach u (List.mem_cons_of_mem t hu)) (hHead.sound hSound)
      rw [hHead.inVarPattern] at hTail
      exact hHead.trans hTail hSound

/-- So are trees in a scope of their own. -/
theorem scopeWalkAll_close (hSound : w.Sound) (holdsVar : Bool) :
    Walks ((walkedAll w.inVarPattern ts).close holdsVar) (holdsDeclaratorAll ts) w
      (scopeWalkAll ts (w.enter holdsVar)).leave :=
  (scopeWalkAll_walks ts hEach (sound_enter hSound holdsVar)).close hSound

/-- A class is walked as its head around it and then the block of the others. -/
theorem classWalk_walks (hSound : w.Sound) :
    Walks ((walkedClass w.inVarPattern ts).1 ++ (walkedClass w.inVarPattern ts).2.block)
      (holdsDeclaratorAll ts) w (classWalk ts w) := by
  induction ts generalizing w with
  | nil => exact (Walks.refl (w := w.enter false)).close hSound
  | cons t ts ih =>
      have hHead : ∀ {w : ScopeWalk}, w.Sound → _ := hEach t List.mem_cons_self
      have hRest : ∀ {w : ScopeWalk}, w.Sound → _ :=
        ih fun u hu => hEach u (List.mem_cons_of_mem t hu)
      unfold classWalk
      split
      · cases ‹t :: ts = []›
      · rename_i hEq
        cases hEq
        have hBehind := hRest ((hHead hSound).sound hSound)
        rw [(hHead hSound).inVarPattern] at hBehind
        rw [walkedClass, Scoping.append_assoc]
        exact (hHead hSound).trans hBehind hSound
      · rename_i name _ _ _ hEq
        cases hEq
        have hName := walks_declare (w := w) name w.inVarPattern
        have hBehind := hRest (hName.sound hSound)
        rw [hName.inVarPattern, Bool.not_false, Bool.and_true] at hBehind
        rw [walkedClass, Scoping.append_assoc]
        exact hName.trans hBehind hSound
      · rename_i hEq
        cases hEq
        rw [walkedClass, Scoping.empty_append]
        · exact scopeWalkAll_close (t :: ts) hEach hSound false
        all_goals assumption

end

/-- The walk over a node has the scoping of the node. -/
theorem scopeWalk_walks (t : Tree) {w : ScopeWalk} (hSound : w.Sound) :
    Walks (walked w.inVarPattern t) (holdsDeclarator t) w (scopeWalk t w) := by
  induction t generalizing w with
  | node kind span children ih =>
      unfold scopeWalk
      split
      · rename_i hEq
        cases hEq
        exact walks_refer _
      · rename_i hEq
        cases hEq
        exact walks_declare _ _
      · rename_i kind' _ pattern rest hEq
        cases hEq
        have hPattern :=
          ih pattern List.mem_cons_self (w := { w with inVarPattern := kind' = .var }) hSound
        have hSound' := (hPattern.ofPattern).sound hSound
        have hRest := scopeWalkAll_walks rest (fun t ht => ih t (List.mem_cons_of_mem _ ht)) hSound'
        exact hPattern.ofPattern.trans hRest hSound
      · rename_i hEq
        cases hEq
        have hName := walks_declareName (w := w) (children.findSome? bindingName?)
        have hBody := scopeWalkAll_close children ih (hName.sound hSound) true
        rw [hName.inVarPattern, Bool.not_false, Bool.and_true] at hBody
        exact hName.trans hBody hSound
      · rename_i hEq
        cases hEq
        exact classWalk_walks children ih hSound
      · rename_i hEq
        cases hEq
        exact classWalk_walks children ih hSound
      · rename_i value cases hEq
        cases hEq
        have hValue := ih value List.mem_cons_self hSound
        have hCases := scopeWalkAll_close cases (fun t ht => ih t (List.mem_cons_of_mem _ ht))
          (hValue.sound hSound) false
        rw [hValue.inVarPattern] at hCases
        exact hValue.trans hCases hSound
      · rename_i name rest hEq
        cases hEq
        have hName := ih name List.mem_cons_self hSound
        have hRest := scopeWalkAll_close rest (fun t ht => ih t (List.mem_cons_of_mem _ ht))
          (hName.sound hSound) false
        rw [hName.inVarPattern] at hRest
        exact hName.trans hRest hSound
      · rename_i name rest hEq
        cases hEq
        have hName := ih name List.mem_cons_self hSound
        have hRest := scopeWalkAll_close rest (fun t ht => ih t (List.mem_cons_of_mem _ ht))
          (hName.sound hSound) true
        rw [hName.inVarPattern] at hRest
        exact hName.trans hRest hSound
      · rename_i hEq
        cases hEq
        rw [walked, holdsDeclarator]
        · split
          · rename_i hErased
            rw [hErased]
            exact Walks.refl
          · rename_i hErased
            rw [Bool.eq_false_iff.mpr hErased, Bool.not_false, Bool.true_and]
            cases kind.opensScope with
            | some holdsVar => exact scopeWalkAll_close children ih hSound holdsVar
            | none => exact scopeWalkAll_walks children ih hSound
        all_goals assumption

/-- The free references are those that the walk leaves open. -/
theorem freeReferences_eq (ts : List Tree) :
    freeReferences ts = (walkedAll false ts).function.free := by
  have hSound : ScopeWalk.Sound {} := fun _ hid => nomatch hid
  have hWalk := scopeWalkAll_close ts (fun t _ _ => scopeWalk_walks t) hSound true
  obtain ⟨new, hNew, hResolved⟩ := hWalk.references
  have hNew : (scopeWalkAll ts (ScopeWalk.enter true {})).references = new := hNew
  calc freeReferences ts
      = (scopeWalkAll ts (ScopeWalk.enter true {})).leave.unresolved new := by rw [← hNew]; rfl
    _ = (walkedAll false ts).function.free.filter fun _ => true :=
        hResolved _ fun _ _ _ _ => Iff.rfl
    _ = (walkedAll false ts).function.free := List.filter_eq_self.mpr fun _ _ => rfl

end Tree

namespace Scoping

/-- The references that code leaves open stand at some of the given nodes. -/
def StandsIn (nodes : List Tree) (s : Scoping) : Prop := ∀ r ∈ s.free, ∃ n ∈ nodes, r.At n

variable {nodes : List Tree} {a b s : Scoping}

/-- What stands in two pieces of code stands in both together. -/
theorem StandsIn.append (ha : a.StandsIn nodes) (hb : b.StandsIn nodes) :
    (a ++ b).StandsIn nodes := by
  intro r hr
  rcases List.mem_append.mp hr with hr | hr
  · exact ha r hr
  · exact hb r hr

/-- A block leaves no reference open that is not in it. -/
theorem StandsIn.block (h : s.StandsIn nodes) : s.block.StandsIn nodes :=
  fun r hr => h r (mem_free_block.mp hr).1

/-- A function leaves no reference open that is not in it. -/
theorem StandsIn.function (h : s.StandsIn nodes) : s.function.StandsIn nodes :=
  fun r hr => h r (mem_free_function.mp hr).1

theorem StandsIn.mono {nodes' : List Tree} (h : s.StandsIn nodes) (hSubset : nodes ⊆ nodes') :
    s.StandsIn nodes' := by
  intro r hr
  obtain ⟨n, hn, hAt⟩ := h r hr
  exact ⟨n, hSubset hn, hAt⟩

theorem standsIn_of_free_nil (h : s.free = []) : s.StandsIn nodes := by
  intro r hr
  rw [h] at hr
  cases hr

end Scoping

namespace Tree

open Scoping

section

variable {nodes : List Tree} (ts : List Tree)
  (hEach : ∀ t ∈ ts, ∀ inVarPattern, (walked inVarPattern t).StandsIn nodes)

include hEach

/-- References of several trees stand in the nodes that those of each tree stand in. -/
theorem walkedAll_standsIn (inVarPattern : Bool) : (walkedAll inVarPattern ts).StandsIn nodes := by
  induction ts generalizing inVarPattern with
  | nil => exact standsIn_of_free_nil rfl
  | cons t ts ih =>
      exact (hEach t List.mem_cons_self _).append
        (ih (fun u hu => hEach u (List.mem_cons_of_mem t hu)) _)

/-- Those of a class do so as well, in its head and behind it. -/
theorem walkedClass_standsIn (inVarPattern : Bool) :
    (walkedClass inVarPattern ts).1.StandsIn nodes ∧
      (walkedClass inVarPattern ts).2.StandsIn nodes := by
  have hNone : ∀ s : Scoping, s.free = [] → s.StandsIn nodes := fun _ => standsIn_of_free_nil
  induction ts generalizing inVarPattern with
  | nil => exact ⟨hNone _ rfl, hNone _ rfl⟩
  | cons t ts ih =>
      have hRest := ih fun u hu => hEach u (List.mem_cons_of_mem t hu)
      unfold walkedClass
      split
      · cases ‹t :: ts = []›
      · rename_i hEq
        cases hEq
        exact ⟨(hEach _ List.mem_cons_self _).append (hRest _).1, (hRest _).2⟩
      · rename_i hEq
        cases hEq
        have hName := hEach _ List.mem_cons_self inVarPattern
        exact ⟨hName.append (hRest _).1, (hRest _).2⟩
      · rename_i hEq
        cases hEq
        exact ⟨hNone _ rfl, walkedAll_standsIn (t :: ts) hEach _⟩

end

/-- The walk makes no references up: each stands at a node of the tree. -/
theorem walked_standsIn (t : Tree) (inVarPattern : Bool) :
    (walked inVarPattern t).StandsIn t.preorder := by
  induction t generalizing inVarPattern with
  | node kind span children ih =>
      have hChild : ∀ c ∈ children, ∀ inVarPattern,
          (walked inVarPattern c).StandsIn (node kind span children).preorder :=
        fun c hc _ => (ih c hc _).mono fun _ hn => mem_preorder_of_child hc hn
      have hAll : ∀ cs ⊆ children, ∀ inVarPattern,
          (walkedAll inVarPattern cs).StandsIn (node kind span children).preorder :=
        fun cs hcs => walkedAll_standsIn cs fun c hc => hChild c (hcs hc)
      unfold walked
      split
      · rename_i name _ _ hEq
        cases hEq
        intro r hr
        rw [List.mem_singleton.mp hr]
        exact ⟨_, mem_preorder_self _, rfl, rfl⟩
      · cases inVarPattern <;> exact standsIn_of_free_nil rfl
      · rename_i hEq
        cases hEq
        exact (hChild _ List.mem_cons_self _).append (hAll _ (List.subset_cons_self _ _) _)
      · rename_i hEq
        cases hEq
        exact (standsIn_of_free_nil rfl).append (hAll _ (List.Subset.refl _) _).function
      · rename_i hEq
        cases hEq
        obtain ⟨hAround, hInside⟩ := walkedClass_standsIn children hChild inVarPattern
        exact hAround.append hInside.block
      · rename_i hEq
        cases hEq
        obtain ⟨hAround, hInside⟩ := walkedClass_standsIn children hChild inVarPattern
        exact hAround.append hInside.block
      · rename_i hEq
        cases hEq
        exact (hChild _ List.mem_cons_self _).append (hAll _ (List.subset_cons_self _ _) _).block
      · rename_i hEq
        cases hEq
        exact (hChild _ List.mem_cons_self _).append (hAll _ (List.subset_cons_self _ _) _).block
      · rename_i hEq
        cases hEq
        exact (hChild _ List.mem_cons_self _).append
          (hAll _ (List.subset_cons_self _ _) _).function
      · rename_i hEq
        cases hEq
        have hChildren := hAll children (List.Subset.refl _) inVarPattern
        split
        · exact standsIn_of_free_nil rfl
        · split
          · rename_i holdsVar _
            cases holdsVar
            · exact hChildren.block
            · exact hChildren.function
          · exact hChildren

/-- Every free reference of expressions stands at a node of them that refers to its name. -/
theorem mem_freeReferences {ts : List Tree} {r : Reference} (h : r ∈ freeReferences ts) :
    ∃ n ∈ ts.flatMap preorder, r.At n := by
  rw [freeReferences_eq] at h
  have hEach : ∀ t ∈ ts, ∀ inVarPattern, (walked inVarPattern t).StandsIn (ts.flatMap preorder) :=
    fun t ht _ => (walked_standsIn t _).mono fun n hn => List.mem_flatMap.mpr ⟨t, ht, hn⟩
  exact (walkedAll_standsIn ts hEach false).function r h

end Tree

end ComponentAnalysis
