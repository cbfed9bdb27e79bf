import ComponentAnalysis.Proofs.Macro.Steps

/-! The nodes that a walk over several trees visits, each with the scopes around it. The steps at
and below a node are balanced: they leave the scopes that they open, and those in between are taken
in the scopes around their nodes. No two scopes are opened at one place, so places name scopes, and
references are recorded in the order of their places. -/
namespace ComponentAnalysis

/-- Whether a step opens or leaves a scope. -/
def ScopeStep.isBracket : ScopeStep → Bool
  | .enter _ | .leave => true
  | _ => false

/-- Whether a step records a reference. -/
def ScopeStep.isRefer : ScopeStep → Bool
  | .refer _ => true
  | _ => false

/-- A step that is no bracket opens nothing. -/
theorem ScopeStep.opensScope_of_isBracket {step : ScopeStep} (h : step.isBracket = false) :
    step.opensScope = false := by
  cases step <;> first | rfl | cases h

namespace Tree

/-- Whether a walk goes on to the nodes below a node. -/
def isEntered : Tree → Bool
  | node (.reference _) _ _ | node (.binding _) _ _ => false
  | node kind _ _ => !kind.isErased

/-- Whether a node opens a scope around its child at a position. -/
def opensAround (t : Tree) (i : Nat) : Bool := t.scope?.isSome && t.outside ≤ i

/-- The walk over several trees visits a node at a place in some scopes. Scopes are named by the
places of the nodes that open them, innermost first; the last one is open around all the trees. -/
inductive Visits (ts : List Tree) : Place → Tree → List Place → Prop
  | top {i : Nat} {t : Tree} (hAt : ts[i]? = some t) : Visits ts [i] t [[]]
  | child {place : Place} {t c : Tree} {scopes : List Place} {i : Nat}
      (h : Visits ts place t scopes) (hEntered : t.isEntered = true)
      (hAt : t.children[i]? = some c) :
      Visits ts (i :: place) c (if t.opensAround i then place :: scopes else scopes)

/-- The steps that a walk takes at a node itself. -/
def ownSteps : Tree → List ScopeStep
  | node (.reference name) s _ => [.refer ⟨name, s⟩]
  | node (.binding name) _ _ => [.bind name]
  | node (.declarator kind) _ (_ :: _) => [.pattern (kind = .var), .pattern false]
  | t => t.hoistedName?.toList.map .hoist ++
      t.scope?.toList.flatMap fun holdsVar => [.enter holdsVar, .leave]

/-- Steps that are taken in some scopes and leave these open: scopes opened on the way are left. -/
inductive Balanced (ts : List Tree) : List Place → List PlacedStep → Prop
  | nil (scopes : List Place) : Balanced ts scopes []
  | append {scopes : List Place} {steps more : List PlacedStep} (h : Balanced ts scopes steps)
      (h' : Balanced ts scopes more) : Balanced ts scopes (steps ++ more)
  | step {place : Place} {t : Tree} {scopes : List Place} {step : ScopeStep}
      (hVisits : Visits ts place t scopes) (hOwn : step ∈ t.ownSteps)
      (hStays : step.isBracket = false) : Balanced ts scopes [(place, step)]
  | scope {place : Place} {t : Tree} {scopes : List Place} {holdsVar : Bool}
      {steps : List PlacedStep} (hVisits : Visits ts place t scopes)
      (hScope : t.scope? = some holdsVar) (h : Balanced ts (place :: scopes) steps) :
      Balanced ts scopes ((place, .enter holdsVar) :: (steps ++ [(place, .leave)]))

section

variable {ts : List Tree} {place : Place} {t : Tree} {scopes : List Place}

/-- A place has one node at most, and that stands in one stack of scopes. -/
theorem Visits.unique (h : Visits ts place t scopes) {t' : Tree} {scopes' : List Place}
    (h' : Visits ts place t' scopes') : t' = t ∧ scopes' = scopes := by
  induction h generalizing t' scopes' with
  | top hAt =>
      cases h' with
      | top hAt' => exact ⟨Option.some.inj (hAt'.symm.trans hAt), rfl⟩
      | child h => cases h
  | child h hEntered hAt ih =>
      cases h' with
      | top hAt' => cases h
      | child h' hEntered' hAt' =>
          obtain ⟨rfl, rfl⟩ := ih h'
          exact ⟨Option.some.inj (hAt'.symm.trans hAt), rfl⟩

/-- The forms that the steps of a node may have. -/
inductive StepsForm (t : Tree) : Prop
  /-- A node that a walk does not enter, a name or one that is erased. -/
  | leaf (hEntered : t.isEntered = false) (hScope : t.scope? = none)
      (hOne : t.ownSteps.length ≤ 1)
      (hStays : ∀ step ∈ t.ownSteps, step.isBracket = false)
      (hSteps : ∀ place, scopeSteps place t = t.ownSteps.map fun step => (place, step))
  | declarator (isVar : Bool) (hEntered : t.isEntered = true) (hScope : t.scope? = none)
      (hOwn : t.ownSteps = [.pattern isVar, .pattern false])
      (hSteps : ∀ place, scopeSteps place t = (place, .pattern isVar) ::
        (((childSteps place 0 t.children).take 1).flatten ++
          (place, .pattern false) :: ((childSteps place 0 t.children).drop 1).flatten))
  | plain (hEntered : t.isEntered = true)
      (hOwn : t.ownSteps = t.hoistedName?.toList.map .hoist ++
        t.scope?.toList.flatMap fun holdsVar => [.enter holdsVar, .leave])
      (hSteps : ∀ place, scopeSteps place t =
        t.hoistedName?.toList.map (fun name => (place, .hoist name)) ++
          (((childSteps place 0 t.children).take t.outside).flatten ++
            scopedSteps place t.scope? ((childSteps place 0 t.children).drop t.outside).flatten))

/-- Every node takes its steps in one of the three forms. The proofs below split on these forms and
not on the many kinds of nodes. -/
theorem stepsForm (t : Tree) : t.StepsForm := by
  obtain ⟨kind, s, cs⟩ := t
  cases kind with
  | reference name | binding name =>
      exact .leaf rfl rfl (Nat.le_refl 1) (List.forall_mem_singleton.mpr rfl) fun _ => rfl
  | booleanType | typeLiteral | otherType | typeParameters =>
      exact .leaf rfl rfl (Nat.zero_le 1) (List.forall_mem_nil _) fun _ => rfl
  | declarator kind =>
      cases cs with
      | nil => exact .plain rfl rfl fun _ => rfl
      | cons pattern rest => exact .declarator (kind = .var) rfl rfl rfl fun _ => rfl
  | _ => exact .plain rfl rfl fun _ => rfl

/-- A node with a scope both opens and leaves it. -/
theorem mem_ownSteps_of_scope? {holdsVar : Bool} (h : t.scope? = some holdsVar) :
    .enter holdsVar ∈ t.ownSteps ∧ .leave ∈ t.ownSteps := by
  cases stepsForm t with
  | leaf _ hScope => cases hScope.symm.trans h
  | declarator _ _ hScope => cases hScope.symm.trans h
  | plain _ hOwn => simp [hOwn, h]

/-! The steps that a walk takes at and below a node are balanced. -/

/-- Steps of a node that are no brackets keep the scopes as they are. -/
theorem balanced_ownSteps {steps : List ScopeStep} (hVisits : Visits ts place t scopes)
    (hOwn : ∀ step ∈ steps, step ∈ t.ownSteps ∧ step.isBracket = false) :
    Balanced ts scopes (steps.map fun step => (place, step)) := by
  induction steps with
  | nil => exact .nil scopes
  | cons step steps ih =>
      obtain ⟨hStep, hSteps⟩ := List.forall_mem_cons.mp hOwn
      exact (Balanced.step hVisits hStep.1 hStep.2).append (ih hSteps)

/-- Siblings that are balanced in the same scopes are balanced together. -/
theorem balanced_childSteps {cs : List Tree} {first : Nat}
    (hEach : ∀ i c, cs[i]? = some c → Balanced ts scopes (scopeSteps ((first + i) :: place) c)) :
    Balanced ts scopes (childSteps place first cs).flatten := by
  induction cs generalizing first with
  | nil => exact .nil scopes
  | cons c cs ih =>
      refine (hEach 0 c rfl).append (ih fun i d hd => ?_)
      rw [Nat.add_assoc, Nat.add_comm 1 i]
      exact hEach (i + 1) d hd

section

variable (hVisits : Visits ts place t scopes) (hEntered : t.isEntered = true)
  (hEach : ∀ c ∈ t.children, ∀ {place scopes}, Visits ts place c scopes →
    Balanced ts scopes (scopeSteps place c))

include hVisits hEntered hEach

/-- The children outside of the scope of a node are walked in the scopes around it. -/
theorem balanced_outside (n : Nat) (hAround : ∀ i < n, t.opensAround i = false) :
    Balanced ts scopes ((childSteps place 0 t.children).take n).flatten := by
  rw [take_childSteps]
  refine balanced_childSteps fun i c hc => ?_
  rw [List.getElem?_take] at hc
  obtain ⟨hi, hc⟩ := Option.ite_none_right_eq_some.mp hc
  have hChild := hVisits.child hEntered hc
  rw [hAround i hi] at hChild
  rw [Nat.zero_add]
  exact hEach c (List.mem_of_getElem? hc) hChild

/-- The children from a position on are walked in one more scope if the node opens one around them.
-/
theorem balanced_inside (n : Nat) (opens : Bool)
    (hAround : ∀ i ≥ n, t.opensAround i = opens) :
    Balanced ts (if opens then place :: scopes else scopes)
      ((childSteps place 0 t.children).drop n).flatten := by
  rw [drop_childSteps]
  refine balanced_childSteps fun i c hc => ?_
  rw [List.getElem?_drop] at hc
  have hChild := hVisits.child hEntered hc
  rw [hAround (n + i) (Nat.le_add_right n i)] at hChild
  rw [Nat.zero_add]
  exact hEach c (List.mem_of_getElem? hc) hChild

/-- The children in the scope of a node are walked in it, and then it is left again. -/
theorem balanced_scoped :
    Balanced ts scopes
      (scopedSteps place t.scope? ((childSteps place 0 t.children).drop t.outside).flatten) := by
  cases hScope : t.scope? with
  | none =>
      exact balanced_inside hVisits hEntered hEach t.outside false fun i _ => by
        simp [opensAround, hScope]
  | some holdsVar =>
      have hInside := balanced_inside hVisits hEntered hEach t.outside true fun i hi => by
        simp [opensAround, hScope, hi]
      exact .scope hVisits hScope hInside

end

/-- The steps at and below a node leave the scopes that the walk was in. -/
theorem balanced_scopeSteps (t : Tree) (hVisits : Visits ts place t scopes) :
    Balanced ts scopes (scopeSteps place t) := by
  induction t generalizing place scopes with
  | node kind span children ih =>
      cases stepsForm (node kind span children) with
      | leaf _ _ _ hStays hSteps =>
          rw [hSteps]
          exact balanced_ownSteps hVisits fun step hStep => ⟨hStep, hStays step hStep⟩
      | declarator isVar hEntered hScope hOwn hSteps =>
          have hAround : ∀ i, (node kind span children).opensAround i = false := by
            simp [opensAround, hScope]
          have hStart : Balanced ts scopes [(place, .pattern isVar)] :=
            .step hVisits (by simp [hOwn]) rfl
          have hPattern := balanced_outside hVisits hEntered ih 1 fun i _ => hAround i
          have hEnd : Balanced ts scopes [(place, .pattern false)] :=
            .step hVisits (by simp [hOwn]) rfl
          have hRest := balanced_inside hVisits hEntered ih 1 false fun i _ => hAround i
          rw [hSteps]
          exact hStart.append (hPattern.append (hEnd.append hRest))
      | plain hEntered hOwn hSteps =>
          have hHoist : Balanced ts scopes ((node kind span children).hoistedName?.toList.map
              fun name => (place, .hoist name)) := by
            cases hName : (node kind span children).hoistedName? with
            | none => exact .nil scopes
            | some name => exact .step hVisits (by simp [hOwn, hName]) rfl
          have hOutside := balanced_outside hVisits hEntered ih
            (node kind span children).outside fun i hi => by simp [opensAround, hi]
          rw [hSteps]
          exact hHoist.append (hOutside.append (balanced_scoped hVisits hEntered ih))

/-! A walk takes, at and below a node that it visits, the steps of the node itself and those of its
children, though not always one after the other. -/

theorem flatten_take_append_drop (parts : List (List PlacedStep)) (n : Nat) :
    (parts.take n).flatten ++ (parts.drop n).flatten = parts.flatten := by
  rw [← List.flatten_append, List.take_append_drop]

/-- Apart from their order, the steps in a scope are its two brackets and those inside. -/
theorem scopedSteps_perm (place : Place) (scope? : Option Bool) (inside : List PlacedStep) :
    (scopedSteps place scope? inside).Perm
      ((scope?.toList.flatMap fun holdsVar => [.enter holdsVar, .leave]).map
        (fun step => (place, step)) ++ inside) := by
  cases scope? with
  | none => exact .rfl
  | some holdsVar => exact (List.perm_append_singleton _ inside).cons _

/-- Apart from their order, the steps of a node are its own and those of its children. -/
theorem scopeSteps_perm (hEntered : t.isEntered = true) (place : Place) :
    (scopeSteps place t).Perm
      (t.ownSteps.map (fun step => (place, step)) ++ (childSteps place 0 t.children).flatten) := by
  cases stepsForm t with
  | leaf hNot => exact absurd (hNot.symm.trans hEntered) Bool.false_ne_true
  | declarator isVar _ _ hOwn hSteps =>
      rw [hSteps, hOwn, ← flatten_take_append_drop (childSteps place 0 t.children) 1]
      exact List.perm_middle.cons _
  | plain _ hOwn hSteps =>
      rw [hSteps, hOwn, ← flatten_take_append_drop (childSteps place 0 t.children) t.outside,
        List.map_append, List.map_map, List.append_assoc]
      refine List.Perm.append_left _ ?_
      have hScoped := scopedSteps_perm place t.scope?
        ((childSteps place 0 t.children).drop t.outside).flatten
      refine (hScoped.append_left _).trans ?_
      rw [← List.append_assoc, ← List.append_assoc]
      exact List.perm_append_comm.append_right _

/-- Below a node that is not entered no steps are taken. -/
theorem scopeSteps_eq_map (hEntered : t.isEntered = false) (place : Place) :
    scopeSteps place t = t.ownSteps.map fun step => (place, step) := by
  cases stepsForm t with
  | leaf _ _ _ _ hSteps => exact hSteps place
  | declarator _ hEntered' => exact absurd (hEntered.symm.trans hEntered') Bool.false_ne_true
  | plain hEntered' => exact absurd (hEntered.symm.trans hEntered') Bool.false_ne_true

theorem childSteps_eq_mapIdx (place : Place) (first : Nat) (cs : List Tree) :
    childSteps place first cs = cs.mapIdx fun i c => scopeSteps ((first + i) :: place) c := by
  induction cs generalizing first with
  | nil => rfl
  | cons c cs ih => simp [childSteps, List.mapIdx_cons, ih, Nat.add_assoc, Nat.add_comm 1]

/-- A step below several siblings is a step of one of them. -/
theorem mem_flatten_childSteps {step : PlacedStep} {cs : List Tree} {first : Nat} :
    step ∈ (childSteps place first cs).flatten ↔
      ∃ i c, cs[i]? = some c ∧ step ∈ scopeSteps ((first + i) :: place) c := by
  rw [childSteps_eq_mapIdx]
  simp only [List.mem_flatten, List.mem_mapIdx, List.getElem?_eq_some_iff]
  grind

theorem mem_scopeSteps_of_mem_ownSteps {step : ScopeStep} (h : step ∈ t.ownSteps) :
    (place, step) ∈ scopeSteps place t := by
  have hOwn : (place, step) ∈ t.ownSteps.map fun step => (place, step) := List.mem_map_of_mem h
  cases hEntered : t.isEntered with
  | false =>
      rw [scopeSteps_eq_map hEntered]
      exact hOwn
  | true => exact (scopeSteps_perm hEntered place).mem_iff.mpr (List.mem_append_left _ hOwn)

/-- Steps are placed at the node itself or below it. -/
theorem suffix_of_mem_scopeSteps {step : PlacedStep} (t : Tree) {place : Place}
    (h : step ∈ scopeSteps place t) : place <:+ step.1 := by
  induction t generalizing place with
  | node kind span children ih =>
      have hOwn : step ∈ (node kind span children).ownSteps.map (fun step => (place, step)) →
          place <:+ step.1 := by
        intro hStep
        obtain ⟨_, _, rfl⟩ := List.mem_map.mp hStep
        exact List.suffix_refl _
      cases hEntered : (node kind span children).isEntered with
      | false => exact hOwn (scopeSteps_eq_map hEntered place ▸ h)
      | true =>
          rw [(scopeSteps_perm hEntered place).mem_iff] at h
          rcases List.mem_append.mp h with hStep | hStep
          · exact hOwn hStep
          · obtain ⟨i, c, hAt, hStep⟩ := mem_flatten_childSteps.mp hStep
            exact (List.suffix_cons _ place).trans (ih c (List.mem_of_getElem? hAt) hStep)

/-- The steps of a walk over several trees. -/
def walkSteps (ts : List Tree) : List PlacedStep := (childSteps [] 0 ts).flatten

/-- A whole walk ends in the one scope around all the trees. -/
theorem balanced_walkSteps (ts : List Tree) : Balanced ts [[]] (walkSteps ts) := by
  refine balanced_childSteps fun i t hAt => ?_
  rw [Nat.zero_add]
  exact balanced_scopeSteps t (.top hAt)

/-- The steps of a visited node are steps of the walk. -/
theorem Visits.scopeSteps_subset (h : Visits ts place t scopes) :
    scopeSteps place t ⊆ walkSteps ts := by
  induction h with
  | @top i t hAt =>
      intro step hStep
      rw [← Nat.zero_add i] at hStep
      exact mem_flatten_childSteps.mpr ⟨i, t, hAt, hStep⟩
  | @child place t c scopes i h hEntered hAt ih =>
      intro step hStep
      rw [← Nat.zero_add i] at hStep
      have hBelow := mem_flatten_childSteps.mpr ⟨i, c, hAt, hStep⟩
      exact ih ((scopeSteps_perm hEntered place).mem_iff.mpr (List.mem_append_right _ hBelow))

end

/-! The places at which steps of one kind are taken. Below one node, those in an earlier child come
first. -/

/-- Whether a place comes before another one: both stand below one node, the first in an earlier
child. -/
def Precedes (p q : Place) : Prop :=
  ∃ around i j, i < j ∧ (i :: around) <:+ p ∧ (j :: around) <:+ q

/-- A place does not come before itself. -/
theorem Precedes.ne {p q : Place} (h : Precedes p q) : p ≠ q := by
  rintro rfl
  obtain ⟨around, i, j, hLt, hFirst, hSecond⟩ := h
  have hSuffix := List.suffix_of_suffix_length_le hFirst hSecond (Nat.le_refl _)
  have hSame := (List.cons.inj (hSuffix.eq_of_length rfl)).1
  exact absurd hSame (Nat.ne_of_lt hLt)

/-- The places at which steps of a kind are taken. -/
def placesOf (kind : ScopeStep → Bool) (steps : List PlacedStep) : List Place :=
  (steps.filter fun step => kind step.2).map Prod.fst

section

variable {kind : ScopeStep → Bool}

@[simp] theorem placesOf_nil : placesOf kind [] = [] := rfl

@[simp] theorem placesOf_append (steps more : List PlacedStep) :
    placesOf kind (steps ++ more) = placesOf kind steps ++ placesOf kind more := by
  simp [placesOf]

@[simp] theorem placesOf_cons (step : PlacedStep) (steps : List PlacedStep) :
    placesOf kind (step :: steps) = (if kind step.2 then [step.1] else []) ++
      placesOf kind steps := by
  unfold placesOf
  rw [List.filter_cons]
  split <;> rfl

/-- The places do not depend on the order of the steps, except for their own order. -/
theorem placesOf_perm {steps more : List PlacedStep} (h : steps.Perm more) :
    (placesOf kind steps).Perm (placesOf kind more) :=
  (h.filter _).map Prod.fst

theorem mem_placesOf {steps : List PlacedStep} {place : Place} :
    place ∈ placesOf kind steps ↔ ∃ step, (place, step) ∈ steps ∧ kind step = true := by
  simp [placesOf]

/-- A node takes all of its own steps at the one place. -/
theorem placesOf_map (place : Place) (own : List ScopeStep) :
    placesOf kind (own.map fun step => (place, step)) = List.replicate (own.countP kind) place := by
  induction own with
  | nil => rfl
  | cons step own ih =>
      rw [List.map_cons, placesOf_cons, ih, List.countP_cons]
      split <;> simp [List.replicate_succ]

/-- The places of the steps of a node are below its own. -/
theorem suffix_of_mem_placesOf {t : Tree} {place q : Place}
    (h : q ∈ placesOf kind (scopeSteps place t)) : place <:+ q := by
  obtain ⟨step, hStep, -⟩ := mem_placesOf.mp h
  exact suffix_of_mem_scopeSteps t hStep

/-- The places of the steps of siblings are below one of them. -/
theorem exists_suffix_of_mem_placesOf {ts : List Tree} {place q : Place} {first : Nat}
    (h : q ∈ placesOf kind (childSteps place first ts).flatten) :
    ∃ i ≥ first, (i :: place) <:+ q := by
  obtain ⟨step, hStep, -⟩ := mem_placesOf.mp h
  obtain ⟨i, t, -, hStep⟩ := mem_flatten_childSteps.mp hStep
  exact ⟨first + i, Nat.le_add_right _ _, suffix_of_mem_scopeSteps t hStep⟩

/-- A relation that holds whenever a place comes before another holds between all places of several
siblings, if it does so within each of them. -/
theorem pairwise_childSteps {R : Place → Place → Prop} (hR : ∀ p q, Precedes p q → R p q)
    (ts : List Tree) (hEach : ∀ t ∈ ts, ∀ place, (placesOf kind (scopeSteps place t)).Pairwise R)
    (place : Place) (first : Nat) :
    (placesOf kind (childSteps place first ts).flatten).Pairwise R := by
  induction ts generalizing first with
  | nil => exact .nil
  | cons t ts ih =>
      have hHead := hEach t List.mem_cons_self (first :: place)
      have hTail := ih (fun u hu => hEach u (List.mem_cons_of_mem t hu)) (first + 1)
      rw [childSteps, List.flatten_cons, placesOf_append]
      refine List.pairwise_append.mpr ⟨hHead, hTail, fun q hq q' hq' => hR q q' ?_⟩
      obtain ⟨i, hi, hSuffix⟩ := exists_suffix_of_mem_placesOf hq'
      exact ⟨place, first, i, hi, suffix_of_mem_placesOf hq, hSuffix⟩

end

/-- A node opens one scope at most. -/
theorem countP_opensScope_le (t : Tree) : t.ownSteps.countP ScopeStep.opensScope ≤ 1 := by
  cases stepsForm t with
  | leaf _ _ hOne => exact List.countP_le_length.trans hOne
  | declarator isVar _ _ hOwn => simp [hOwn, ScopeStep.opensScope]
  | plain _ hOwn =>
      rw [hOwn]
      cases t.hoistedName? <;> cases t.scope? <;> simp [List.countP_cons, ScopeStep.opensScope]

/-- No two scopes below a node are opened at one place. -/
theorem nodup_opened (t : Tree) (place : Place) :
    (placesOf ScopeStep.opensScope (scopeSteps place t)).Nodup := by
  induction t generalizing place with
  | node kind span children ih =>
      have hOne : (List.replicate _ place).Nodup :=
        List.nodup_replicate.mpr (countP_opensScope_le (node kind span children))
      cases hEntered : (node kind span children).isEntered with
      | false =>
          rw [scopeSteps_eq_map hEntered, placesOf_map]
          exact hOne
      | true =>
          have hBelow := pairwise_childSteps (fun _ _ => Precedes.ne) children ih place 0
          rw [(placesOf_perm (scopeSteps_perm hEntered place)).nodup_iff, placesOf_append,
            placesOf_map]
          refine List.nodup_append.mpr ⟨hOne, hBelow, fun q hq q' hq' hEq => ?_⟩
          -- A place is no place below itself.
          obtain ⟨i, -, hSuffix⟩ := exists_suffix_of_mem_placesOf hq'
          rw [← hEq, List.eq_of_mem_replicate hq] at hSuffix
          exact absurd hSuffix.length_le (Nat.not_succ_le_self _)

/-- A node that is entered records no reference itself. -/
theorem placesOf_isRefer_scopeSteps {t : Tree} (hEntered : t.isEntered = true) (place : Place) :
    placesOf ScopeStep.isRefer (scopeSteps place t) =
      placesOf ScopeStep.isRefer (childSteps place 0 t.children).flatten := by
  cases stepsForm t with
  | leaf hNot => exact absurd (hNot.symm.trans hEntered) Bool.false_ne_true
  | declarator isVar _ _ _ hSteps =>
      rw [hSteps, ← flatten_take_append_drop (childSteps place 0 t.children) 1]
      simp [ScopeStep.isRefer]
  | plain _ _ hSteps =>
      rw [hSteps, ← flatten_take_append_drop (childSteps place 0 t.children) t.outside]
      cases t.hoistedName? <;> cases t.scope? <;> simp [scopedSteps, ScopeStep.isRefer]

/-- The references at and below a node are recorded in the order of their places. -/
theorem pairwise_referring (t : Tree) (place : Place) :
    (placesOf ScopeStep.isRefer (scopeSteps place t)).Pairwise Precedes := by
  induction t generalizing place with
  | node kind span children ih =>
      cases stepsForm (node kind span children) with
      | leaf _ _ hOne _ hSteps =>
          rw [hSteps, placesOf_map]
          exact List.pairwise_replicate.mpr (.inl (List.countP_le_length.trans hOne))
      | declarator _ hEntered | plain hEntered =>
          rw [placesOf_isRefer_scopeSteps hEntered]
          exact pairwise_childSteps (fun _ _ h => h) children ih place 0

/-- The places at which a walk over several trees opens scopes, in the order in which it does. -/
def openers (ts : List Tree) : List Place := [] :: placesOf ScopeStep.opensScope (walkSteps ts)

/-- The places where scopes are opened name them without ambiguity. The scope around all the trees
has the empty place, at which no node stands. -/
theorem nodup_openers (ts : List Tree) : (openers ts).Nodup := by
  have hBelow := pairwise_childSteps (fun _ _ => Precedes.ne) ts (fun t _ => nodup_opened t) [] 0
  refine List.nodup_cons.mpr ⟨fun hMem => ?_, hBelow⟩
  obtain ⟨i, -, hSuffix⟩ := exists_suffix_of_mem_placesOf hMem
  exact absurd hSuffix.length_le (Nat.not_succ_le_zero _)

/-- A walk records its references in the order of their places. -/
theorem pairwise_walkSteps (ts : List Tree) :
    (placesOf ScopeStep.isRefer (walkSteps ts)).Pairwise Precedes :=
  pairwise_childSteps (fun _ _ h => h) ts (fun t _ => pairwise_referring t) [] 0

end Tree

end ComponentAnalysis
