import ComponentAnalysis.Proofs.Macro.References

/-! The walk over scopes, taken apart into steps. A step opens or leaves a scope, declares a name or
records a reference; every node takes some of its own around those of its children. The states that
a walk goes through are those between its steps. -/
namespace ComponentAnalysis

/-- What a walk over scopes does, one thing at a time. -/
inductive ScopeStep where
  | enter (holdsVar : Bool)
  | leave
  /-- Declare a name where names are bound at present. -/
  | bind (name : String)
  /-- Declare a name in the innermost scope that holds `var`. -/
  | hoist (name : String)
  | refer (reference : Reference)
  /-- Say whether names that are bound from now on belong to a `var` declarator. -/
  | pattern (isVar : Bool)
  deriving DecidableEq, Repr

def ScopeStep.opensScope : ScopeStep → Bool
  | .enter _ => true
  | _ => false

/-- Where a node stands in several trees: the positions of the node and of those around it among
their siblings, from the inside out. -/
abbrev Place := List Nat

abbrev PlacedStep := Place × ScopeStep

namespace ScopeWalk

def take (w : ScopeWalk) : ScopeStep → ScopeWalk
  | .enter holdsVar => w.enter holdsVar
  | .leave => w.leave
  | .bind name => w.declare name w.inVarPattern
  | .hoist name => w.declare name true
  | .refer reference => w.refer reference
  | .pattern isVar => { w with inVarPattern := isVar }

def run (w : ScopeWalk) (steps : List PlacedStep) : ScopeWalk :=
  steps.foldl (fun w step => w.take step.2) w

/-- The number of the scope in which a step declares a name, and the name. -/
def declared? (w : ScopeWalk) : ScopeStep → Option (Nat × String)
  | .bind name => (w.target? w.inVarPattern).map fun id => (id, name)
  | .hoist name => (w.target? true).map fun id => (id, name)
  | _ => none

/-- The reference that a step records, with the open scopes. -/
def recorded? (w : ScopeWalk) : ScopeStep → Option (Reference × List Nat)
  | .refer reference => some (reference, w.chain)
  | _ => none

end ScopeWalk

/-- A step of a walk, with the state in which it is taken. -/
structure Moment where
  place : Place
  step : ScopeStep
  state : ScopeWalk

namespace Moment

def declared? (m : Moment) : Option (Nat × String) := m.state.declared? m.step

def recorded? (m : Moment) : Option (Reference × List Nat) := m.state.recorded? m.step

end Moment

namespace ScopeWalk

/-- All moments of a walk that takes some steps. -/
def moments (w : ScopeWalk) : List PlacedStep → List Moment
  | [] => []
  | (place, step) :: steps => ⟨place, step, w⟩ :: (w.take step).moments steps

section

variable {w : ScopeWalk} {id : Nat} {name : String}

@[simp] theorem run_nil : w.run [] = w := rfl

@[simp] theorem run_cons (step : PlacedStep) (steps : List PlacedStep) :
    w.run (step :: steps) = (w.take step.2).run steps := rfl

theorem moments_cons (step : PlacedStep) (steps : List PlacedStep) :
    w.moments (step :: steps) = ⟨step.1, step.2, w⟩ :: (w.take step.2).moments steps := rfl

@[simp] theorem run_append (steps more : List PlacedStep) :
    w.run (steps ++ more) = (w.run steps).run more := List.foldl_append

/-- A walk goes through the moments of its first steps and then, from where they end, those of the
others. -/
theorem moments_append (steps more : List PlacedStep) :
    w.moments (steps ++ more) = w.moments steps ++ (w.run steps).moments more := by
  induction steps generalizing w with
  | nil => rfl
  | cons step steps ih => exact congrArg (⟨step.1, step.2, w⟩ :: ·) ih

/-- Leaving out the states gives the steps back. -/
theorem map_moments (steps : List PlacedStep) :
    (w.moments steps).map (fun m => (m.place, m.step)) = steps := by
  induction steps generalizing w with
  | nil => rfl
  | cons step steps ih => exact congrArg (step :: ·) ih

/-- Each step is taken at some moment, and nothing else is. -/
theorem exists_mem_moments_iff {steps : List PlacedStep} {step : PlacedStep} :
    (∃ m ∈ w.moments steps, m.place = step.1 ∧ m.step = step.2) ↔ step ∈ steps := by
  conv_rhs => rw [← map_moments (w := w) steps]
  simp only [List.mem_map, Prod.ext_iff]

/-- What every step keeps holds at every moment and in the end. -/
theorem of_kept {P : ScopeWalk → Prop} (hKept : ∀ w step, P w → P (w.take step)) (h : P w)
    (steps : List PlacedStep) : (∀ m ∈ w.moments steps, P m.state) ∧ P (w.run steps) := by
  induction steps generalizing w with
  | nil => exact ⟨fun _ hm => (nomatch hm), h⟩
  | cons step steps ih =>
      obtain ⟨hMoments, hEnd⟩ := ih (hKept w step.2 h)
      exact ⟨List.forall_mem_cons.mpr ⟨h, hMoments⟩, hEnd⟩

/-! What one step keeps. -/

/-- A sound walk stays sound. -/
theorem sound_take (step : ScopeStep) (hSound : w.Sound) : (w.take step).Sound := by
  cases step with
  | enter holdsVar => exact sound_enter hSound holdsVar
  | leave => exact fun id hid => hSound id (List.mem_of_mem_tail hid)
  | bind name => exact (walks_declare name _).sound hSound
  | hoist name => exact (walks_declare name true).sound hSound
  | refer reference => exact hSound
  | pattern isVar => exact hSound

/-- Scopes are added by the steps that open one and never removed. -/
theorem length_scopes_take (step : ScopeStep) :
    (w.take step).scopes.length = w.scopes.length + if step.opensScope then 1 else 0 := by
  have hDeclare : ∀ name toVarScope,
      (w.declare name toVarScope).scopes.length = w.scopes.length := by
    intro name toVarScope
    unfold declare
    split <;> simp
  cases step with
  | enter holdsVar => simp [take, enter, ScopeStep.opensScope]
  | bind name => exact hDeclare name _
  | hoist name => exact hDeclare name true
  | leave | refer reference | pattern isVar => rfl

/-- A scope holds `var` or does not, for good. -/
theorem holdsVarAt_take (step : ScopeStep) (h : id < w.scopes.length) :
    (w.take step).holdsVarAt id = w.holdsVarAt id := by
  cases step with
  | enter holdsVar => exact holdsVarAt_enter holdsVar h
  | bind name => exact (walks_declare name _).holdsVarAt id h
  | hoist name => exact (walks_declare name true).holdsVarAt id h
  | leave | refer reference | pattern isVar => rfl

/-- Only scopes that exist have declarations. -/
theorem lt_of_declaresAt (h : w.DeclaresAt id name) : id < w.scopes.length := by
  obtain ⟨scope, hScope, -⟩ := h
  exact (List.getElem?_eq_some_iff.mp hScope).1

/-- Declaring a name adds it to one scope and leaves the other declarations alone. -/
theorem declaresAt_declare_iff (hSound : w.Sound) {toVarScope : Bool} {name' : String} :
    (w.declare name toVarScope).DeclaresAt id name' ↔
      w.DeclaresAt id name' ∨ (w.target? toVarScope).map (fun id => (id, name)) =
        some (id, name') := by
  have hLength : (w.declare name toVarScope).scopes.length = w.scopes.length := by
    unfold declare
    split <;> simp
  simp only [Option.map_eq_some_iff, Prod.ext_iff]
  by_cases hid : id < w.scopes.length
  · rw [declaresAt_declare hid]
    grind
  · refine iff_of_false (fun h => hid (hLength ▸ lt_of_declaresAt h)) ?_
    rintro (h | ⟨target, hTarget, rfl, -⟩)
    · exact hid (lt_of_declaresAt h)
    · exact hid (hSound _ (mem_chain_of_target? hTarget))

/-- A step declares the one name that it says, in the scope that it says. -/
theorem declaresAt_take (hSound : w.Sound) (step : ScopeStep) :
    (w.take step).DeclaresAt id name ↔
      w.DeclaresAt id name ∨ w.declared? step = some (id, name) := by
  have hSame : w.DeclaresAt id name ↔
      w.DeclaresAt id name ∨ (none : Option (Nat × String)) = some (id, name) := by simp
  cases step with
  | enter holdsVar =>
      refine Iff.trans ?_ hSame
      rcases Nat.lt_trichotomy id w.scopes.length with hid | rfl | hid
      · exact declaresAt_enter holdsVar hid
      · exact iff_of_false (not_declaresAt_entered holdsVar)
          fun h => Nat.lt_irrefl _ (lt_of_declaresAt h)
      · refine iff_of_false (fun h => ?_) fun h => Nat.lt_asymm hid (lt_of_declaresAt h)
        have hLt := lt_of_declaresAt h
        simp only [take, enter, List.length_append, List.length_singleton] at hLt
        omega
  | bind name' => exact declaresAt_declare_iff hSound
  | hoist name' => exact declaresAt_declare_iff hSound
  | leave | refer reference | pattern isVar => exact hSame

/-- The declarations in the end are those at the start and those of each moment. -/
theorem declaresAt_run (hSound : w.Sound) (steps : List PlacedStep) :
    (w.run steps).DeclaresAt id name ↔
      w.DeclaresAt id name ∨ ∃ m ∈ w.moments steps, m.declared? = some (id, name) := by
  induction steps generalizing w with
  | nil => simp [moments]
  | cons step steps ih =>
      rw [run_cons, ih (sound_take step.2 hSound), declaresAt_take hSound, or_assoc]
      simp only [moments_cons, List.mem_cons, exists_eq_or_imp]
      rfl

/-- A step that records a reference puts it behind the earlier ones. -/
theorem references_take (step : ScopeStep) :
    (w.take step).references = w.references ++ (w.recorded? step).toList := by
  cases step with
  | refer reference => rfl
  | bind name | hoist name =>
      simp only [take, declare]
      split <;> simp [recorded?]
  | _ => simp [take, enter, leave, recorded?]

/-- The references in the end are those at the start and then those of each moment, in order. -/
theorem references_run (steps : List PlacedStep) :
    (w.run steps).references = w.references ++ (w.moments steps).filterMap Moment.recorded? := by
  induction steps generalizing w with
  | nil => simp [moments]
  | cons step steps ih =>
      have hHead : Moment.recorded? ⟨step.1, step.2, w⟩ = w.recorded? step.2 := rfl
      rw [run_cons, ih, references_take, List.append_assoc, moments_cons]
      cases hRecorded : w.recorded? step.2 with
      | none =>
          rw [List.filterMap_cons_none (hHead.trans hRecorded)]
          rfl
      | some record =>
          rw [List.filterMap_cons_some (hHead.trans hRecorded)]
          rfl

end

end ScopeWalk

namespace Tree

/-- Whether a child of a class stands outside of the scope of the class if those before it do. -/
def isClassHead : Tree → Bool
  | node .decorator _ _ | node (.binding _) _ _ => true
  | _ => false

/-- How many children of a node stand outside of the scope that the node opens. -/
def outside : Tree → Nat
  | node .classDefinition _ cs | node .classExpression _ cs => (cs.takeWhile isClassHead).length
  | node .switchStatement _ _ | node .interface _ _ | node .namespaceDeclaration _ _ => 1
  | _ => 0

/-- The scope that a node opens around its other children, if it opens one; the value says whether
it holds `var`. -/
def scope? : Tree → Option Bool
  | node .classDefinition _ _ | node .classExpression _ _ => some false
  | node .switchStatement _ (_ :: _) | node .interface _ (_ :: _) => some false
  | node .namespaceDeclaration _ (_ :: _) => some true
  | node kind _ _ => kind.opensScope

/-- The name that a function declaration declares in the function around it. -/
def hoistedName? : Tree → Option String
  | node (.function .declaration) _ cs => cs.findSome? bindingName?
  | _ => none

/-- The steps in a scope that a node opens, between those that open and leave it. -/
def scopedSteps (place : Place) (scope? : Option Bool) (inside : List PlacedStep) :
    List PlacedStep :=
  match scope? with
  | some holdsVar => (place, .enter holdsVar) :: (inside ++ [(place, .leave)])
  | none => inside

/-- The steps at a node, given those at each child. -/
def stepsAround (place : Place) (t : Tree) (parts : List (List PlacedStep)) : List PlacedStep :=
  match t with
  | node (.reference name) s _ => [(place, .refer ⟨name, s⟩)]
  | node (.binding name) _ _ => [(place, .bind name)]
  | node (.declarator kind) _ (_ :: _) =>
    (place, .pattern (kind = .var)) ::
      ((parts.take 1).flatten ++ (place, .pattern false) :: (parts.drop 1).flatten)
  | t =>
    if t.kind.isErased then []
    else
      t.hoistedName?.toList.map (fun name => (place, .hoist name)) ++
        ((parts.take t.outside).flatten ++
          scopedSteps place t.scope? (parts.drop t.outside).flatten)

mutual

/-- The steps that a walk takes at a node and below it. -/
def scopeSteps (place : Place) : Tree → List PlacedStep
  | node kind span cs => stepsAround place (node kind span cs) (childSteps place 0 cs)

/-- The steps at each of several children, of which the first one has a position. -/
def childSteps (place : Place) (first : Nat) : List Tree → List (List PlacedStep)
  | [] => []
  | t :: ts => scopeSteps (first :: place) t :: childSteps place (first + 1) ts

end

/-- The steps of the first siblings do not depend on the later ones. -/
theorem take_childSteps (place : Place) (first n : Nat) (ts : List Tree) :
    (childSteps place first ts).take n = childSteps place first (ts.take n) := by
  induction ts generalizing first n with
  | nil => simp [childSteps]
  | cons t ts ih => cases n <;> simp [childSteps, ih]

/-- The steps of the later siblings depend on the earlier ones only by the count of these. -/
theorem drop_childSteps (place : Place) (first n : Nat) (ts : List Tree) :
    (childSteps place first ts).drop n = childSteps place (first + n) (ts.drop n) := by
  induction ts generalizing first n with
  | nil => simp [childSteps]
  | cons t ts ih =>
      cases n with
      | zero => rfl
      | succ n => simp [childSteps, ih, Nat.add_assoc, Nat.add_comm 1 n]

section

variable (ts : List Tree) (hEach : ∀ t ∈ ts, ∀ place w, ScopeWalk.run w (scopeSteps place t) =
  scopeWalk t w)

include hEach

/-- Taking the steps of several siblings is walking over them, if that holds of each. -/
theorem run_childSteps (place : Place) (first : Nat) (w : ScopeWalk) :
    w.run (childSteps place first ts).flatten = scopeWalkAll ts w := by
  induction ts generalizing first w with
  | nil => rfl
  | cons t ts ih =>
      rw [childSteps, List.flatten_cons, ScopeWalk.run_append, hEach t List.mem_cons_self,
        ih fun u hu => hEach u (List.mem_cons_of_mem t hu)]
      rfl

/-- The steps of a node that opens a scope behind some of its children. -/
theorem run_scopedSteps (place : Place) (n : Nat) (holdsVar : Bool) (w : ScopeWalk) :
    w.run (((childSteps place 0 ts).take n).flatten ++
        scopedSteps place (some holdsVar) ((childSteps place 0 ts).drop n).flatten) =
      (scopeWalkAll (ts.drop n) ((scopeWalkAll (ts.take n) w).enter holdsVar)).leave := by
  have hOutside := run_childSteps (ts.take n) fun t ht => hEach t (List.mem_of_mem_take ht)
  have hInside := run_childSteps (ts.drop n) fun t ht => hEach t (List.mem_of_mem_drop ht)
  rw [take_childSteps, drop_childSteps, scopedSteps, ScopeWalk.run_append, hOutside,
    ScopeWalk.run_cons, ScopeWalk.run_append, hInside]
  rfl

end

/-- Hoisting takes one step, or none without a name. -/
theorem run_hoist (place : Place) (name? : Option String) (w : ScopeWalk) :
    w.run (name?.toList.map fun name => (place, .hoist name)) =
      (match name? with
        | some name => w.declare name true
        | none => w) := by
  cases name? <;> rfl

/-- A class is walked in two parts: its head in the scope around it and the rest in its own. -/
theorem classWalk_eq (ts : List Tree) (w : ScopeWalk) :
    classWalk ts w = (scopeWalkAll (ts.drop (ts.takeWhile isClassHead).length)
      ((scopeWalkAll (ts.take (ts.takeWhile isClassHead).length) w).enter false)).leave := by
  induction ts generalizing w with
  | nil => rfl
  | cons t ts ih =>
      unfold classWalk
      split
      · cases ‹t :: ts = []›
      · rename_i hEq
        cases hEq
        exact ih _
      · rename_i hEq
        cases hEq
        exact ih _
      · rename_i hDecorator hBinding hEq
        cases hEq
        have hHead : t.isClassHead = false := by
          unfold isClassHead
          split
          · exact absurd rfl (hDecorator _ _)
          · exact absurd rfl (hBinding _ _ _)
          · rfl
        rw [List.takeWhile_cons_of_neg (by rw [hHead]; exact Bool.false_ne_true)]
        rfl

/-- The walk over a node is the walk that takes the steps of the node. -/
theorem run_scopeSteps (t : Tree) (place : Place) (w : ScopeWalk) :
    w.run (scopeSteps place t) = scopeWalk t w := by
  induction t generalizing place w with
  | node kind span children ih =>
      have hScoped : ∀ n holdsVar, _ := fun n holdsVar =>
        run_scopedSteps children ih place n holdsVar w
      have hPlain := run_childSteps children ih place 0 w
      cases kind with
      | reference name | binding name => rfl
      | declarator kind =>
          cases children with
          | nil => rfl
          | cons pattern rest =>
              have hRest := run_childSteps rest fun t ht => ih t (List.mem_cons_of_mem _ ht)
              simp only [scopeSteps, childSteps, stepsAround, List.take_succ_cons, List.take_zero,
                List.drop_succ_cons, List.drop_zero, List.flatten_cons, List.flatten_nil,
                List.append_nil, ScopeWalk.run_cons, ScopeWalk.run_append,
                ih pattern List.mem_cons_self, hRest]
              rfl
      | function form =>
          cases form with
          | declaration =>
              have hSteps : scopeSteps place (node (.function .declaration) span children) =
                  ((children.findSome? bindingName?).toList.map fun name => (place, .hoist name)) ++
                    (((childSteps place 0 children).take 0).flatten ++ scopedSteps place (some true)
                      ((childSteps place 0 children).drop 0).flatten) := rfl
              rw [hSteps, ScopeWalk.run_append, run_scopedSteps children ih, run_hoist]
              rfl
          | expression => exact hScoped 0 true
      | classDefinition | classExpression =>
          rw [scopeWalk, classWalk_eq]
          exact hScoped _ false
      | switchStatement | interface | namespaceDeclaration =>
          cases children with
          | nil => rfl
          | cons head rest => exact hScoped 1 _
      | arrow | staticBlock => exact hScoped 0 true
      | block | forStatement | forInStatement | forOfStatement | catchClause | enumBody
      | methodSignature | constructSignature => exact hScoped 0 false
      | booleanType | typeLiteral | otherType | typeParameters => rfl
      | _ => exact hPlain

end Tree

end ComponentAnalysis
