import ComponentAnalysis.Macro.Site
import ComponentAnalysis.Proofs.Macro.Visits
import Mathlib.Data.List.Forall2

/-! What a walk over the arguments of a macro call keeps of scopes. At every moment, the open scopes
in the state of the walk are those around the place that it visits. So a declaration always finds
its scope, and a reference is resolved by all names that the scopes around it declare, before or
behind it. -/
namespace ComponentAnalysis

namespace Tree

/-- Scopes with numbers are those named by places, given the places at which scopes were opened in
the order of their numbers. -/
def NamesScopes (openers : List Place) (chain : List Nat) (scopes : List Place) : Prop :=
  List.Forall₂ (fun id opener => openers[id]? = some opener) chain scopes

/-- A state in which some scopes are open, when scopes have been opened at some places. -/
structure Tracks (openers scopes : List Place) (w : ScopeWalk) : Prop where
  length_eq : w.scopes.length = openers.length
  names : NamesScopes openers w.chain scopes

/-- A moment at a node that the walk visits. It takes a step of the node itself and, but for the one
that leaves the scope of the node, it does so in the scopes around the node. -/
def IsVisit (ts : List Tree) (openers : List Place) (m : Moment) : Prop :=
  ∃ t scopes, Visits ts m.place t scopes ∧ m.step ∈ t.ownSteps ∧
    (m.step ≠ .leave → NamesScopes openers m.state.chain scopes)

section

variable {ts : List Tree} {openers scopes : List Place} {chain : List Nat} {w : ScopeWalk}
  {steps : List PlacedStep} {m : Moment}

/-- Places that are opened later do not rename the scopes of a chain. -/
theorem NamesScopes.append (h : NamesScopes openers chain scopes) (more : List Place) :
    NamesScopes (openers ++ more) chain scopes :=
  h.imp fun _ _ hAt => (List.getElem?_append_left (List.getElem?_eq_some_iff.mp hAt).1).trans hAt

/-- Nor do they change what a moment visits. -/
theorem IsVisit.append (h : IsVisit ts openers m) (more : List Place) :
    IsVisit ts (openers ++ more) m := by
  obtain ⟨t, scopes, hVisits, hOwn, hNames⟩ := h
  exact ⟨t, scopes, hVisits, hOwn, fun hStep => (hNames hStep).append more⟩

/-- Opening a scope at a place puts the place to the open ones. -/
theorem Tracks.enter (h : Tracks openers scopes w) (place : Place) (holdsVar : Bool) :
    Tracks (openers ++ [place]) (place :: scopes) (w.enter holdsVar) where
  length_eq := by simp [ScopeWalk.enter, h.length_eq]
  names := by
    refine .cons ?_ (h.names.append [place])
    rw [h.length_eq, List.getElem?_concat_length]

/-- Leaving a scope takes its place away and nothing else. -/
theorem Tracks.leave {place : Place} (h : Tracks openers (place :: scopes) w) :
    Tracks openers scopes w.leave where
  length_eq := h.length_eq
  names := by
    have hNames := h.names
    unfold NamesScopes at hNames
    cases hChain : w.chain with
    | nil =>
        rw [hChain] at hNames
        cases hNames
    | cons id chain =>
        rw [hChain] at hNames
        cases hNames with
        | cons _ hRest =>
            rw [ScopeWalk.leave, hChain]
            exact hRest

end

end Tree

namespace ScopeWalk

/-- Only brackets change which scopes are open. -/
theorem chain_take {w : ScopeWalk} {step : ScopeStep} (h : step.isBracket = false) :
    (w.take step).chain = w.chain := by
  cases step with
  | enter holdsVar | leave => cases h
  | bind name => exact (walks_declare name _).chain
  | hoist name => exact (walks_declare name true).chain
  | refer reference | pattern isVar => rfl

end ScopeWalk

namespace Tree

section

variable {ts : List Tree} {openers scopes : List Place} {w : ScopeWalk} {steps : List PlacedStep}

/-- Balanced steps leave the open scopes as they are, and these stay open all along. -/
theorem Balanced.chain_run (h : Balanced ts scopes steps) (w : ScopeWalk) :
    (w.run steps).chain = w.chain ∧ ∀ m ∈ w.moments steps, w.chain <:+ m.state.chain := by
  induction h generalizing w with
  | nil => exact ⟨rfl, fun m hm => nomatch hm⟩
  | append _ _ ih ih' =>
      obtain ⟨hChain, hMoments⟩ := ih w
      obtain ⟨hChain', hMoments'⟩ := ih' (w.run _)
      rw [ScopeWalk.run_append, ScopeWalk.moments_append]
      refine ⟨hChain'.trans hChain, List.forall_mem_append.mpr ⟨hMoments, fun m hm => ?_⟩⟩
      exact hChain ▸ hMoments' m hm
  | step _ _ hStays =>
      exact ⟨ScopeWalk.chain_take hStays, List.forall_mem_singleton.mpr (List.suffix_refl _)⟩
  | @scope place t scopes holdsVar steps _ _ _ ih =>
      obtain ⟨hChain, hMoments⟩ := ih (w.enter holdsVar)
      have hInside : w.chain <:+ (w.enter holdsVar).chain := List.suffix_cons _ _
      rw [ScopeWalk.run_cons, ScopeWalk.run_append, ScopeWalk.moments_cons,
        ScopeWalk.moments_append, List.forall_mem_cons, List.forall_mem_append]
      refine ⟨congrArg List.tail hChain, List.suffix_refl _, fun m hm => ?_, ?_⟩
      · exact hInside.trans (hMoments m hm)
      · exact List.forall_mem_singleton.mpr (hChain ▸ hInside)

/-- Steps that are no brackets keep the open scopes in track. -/
theorem Tracks.take (h : Tracks openers scopes w) {step : ScopeStep}
    (hStays : step.isBracket = false) : Tracks openers scopes (w.take step) where
  length_eq := by
    rw [ScopeWalk.length_scopes_take, ScopeStep.opensScope_of_isBracket hStays]
    exact h.length_eq
  names := by
    rw [ScopeWalk.chain_take hStays]
    exact h.names

/-- Along balanced steps, the open scopes are those around the place of every step. -/
theorem Balanced.tracks (h : Balanced ts scopes steps) (hTracks : Tracks openers scopes w) :
    Tracks (openers ++ placesOf ScopeStep.opensScope steps) scopes (w.run steps) ∧
      ∀ m ∈ w.moments steps, IsVisit ts (openers ++ placesOf ScopeStep.opensScope steps) m := by
  induction h generalizing openers w with
  | nil => exact ⟨(List.append_nil openers).symm ▸ hTracks, fun m hm => nomatch hm⟩
  | @append scopes steps more _ _ ih ih' =>
      obtain ⟨hFirst, hMoments⟩ := ih hTracks
      obtain ⟨hSecond, hMoments'⟩ := ih' hFirst
      rw [List.append_assoc, ← placesOf_append] at hSecond hMoments'
      rw [ScopeWalk.run_append, ScopeWalk.moments_append]
      refine ⟨hSecond, List.forall_mem_append.mpr ⟨fun m hm => ?_, hMoments'⟩⟩
      rw [placesOf_append, ← List.append_assoc]
      exact (hMoments m hm).append (placesOf ScopeStep.opensScope more)
  | @step place t scopes step hVisits hOwn hStays =>
      have hNone : placesOf ScopeStep.opensScope [(place, step)] = [] := by
        simp [ScopeStep.opensScope_of_isBracket hStays]
      rw [hNone, List.append_nil]
      exact ⟨hTracks.take hStays,
        List.forall_mem_singleton.mpr ⟨t, scopes, hVisits, hOwn, fun _ => hTracks.names⟩⟩
  | @scope place t scopes holdsVar steps hVisits hScope _ ih =>
      obtain ⟨hInside, hMoments⟩ := ih (hTracks.enter place holdsVar)
      have hOpened : openers ++ placesOf ScopeStep.opensScope
          ((place, .enter holdsVar) :: (steps ++ [(place, .leave)])) =
            openers ++ [place] ++ placesOf ScopeStep.opensScope steps := by
        simp [ScopeStep.opensScope]
      obtain ⟨hEnter, hLeave⟩ := mem_ownSteps_of_scope? hScope
      rw [hOpened, ScopeWalk.run_cons, ScopeWalk.run_append, ScopeWalk.moments_cons,
        ScopeWalk.moments_append, List.forall_mem_cons, List.forall_mem_append]
      refine ⟨hInside.leave, ?_, hMoments, List.forall_mem_singleton.mpr ?_⟩
      · refine ⟨t, scopes, hVisits, hEnter, fun _ => ?_⟩
        exact (hTracks.names.append [place]).append (placesOf ScopeStep.opensScope steps)
      · exact ⟨t, scopes, hVisits, hLeave, fun hNot => absurd rfl hNot⟩

end

/-! The walk over several trees as a whole. -/

/-- The state in which a walk over several trees starts, in a scope that is open around them. -/
def start : ScopeWalk := ScopeWalk.enter true {}

def moments (ts : List Tree) : List Moment := start.moments (walkSteps ts)

/-- The references that a walk records, but for those whose name is declared at any moment, before
or behind the reference, in a scope that is open at the reference. -/
def openReferences (ts : List Tree) : List Reference :=
  (((moments ts).filterMap Moment.recorded?).filter fun (r, chain) =>
    ∀ m ∈ moments ts, ∀ id ∈ chain, m.declared? ≠ some (id, r.name)).map Prod.fst

section

variable {ts : List Tree} {m : Moment}

/-- The steps of a walk lead to where the walk leads. -/
theorem run_walkSteps (ts : List Tree) : start.run (walkSteps ts) = scopeWalkAll ts start :=
  run_childSteps ts (fun t _ => run_scopeSteps t) [] 0 start

/-- The one scope open at the start exists. -/
theorem sound_start : start.Sound := by
  have hNone : ScopeWalk.Sound {} := fun _ hid => nomatch hid
  exact ScopeWalk.sound_enter hNone true

theorem not_declaresAt_start (id : Nat) (name : String) : ¬ start.DeclaresAt id name := by
  rintro ⟨scope, hScope, hName⟩
  obtain ⟨rfl, rfl⟩ : id = 0 ∧ scope = ⟨true, []⟩ := by
    cases id with
    | zero => exact ⟨rfl, (Option.some.inj hScope).symm⟩
    | succ id => cases hScope
  cases hName

/-- Whatever is declared in the end was declared at some moment. -/
theorem declaresAt_scopeWalkAll {id : Nat} {name : String} :
    (scopeWalkAll ts start).DeclaresAt id name ↔
      ∃ m ∈ moments ts, m.declared? = some (id, name) := by
  rw [← run_walkSteps, ScopeWalk.declaresAt_run sound_start]
  exact or_iff_right (not_declaresAt_start id name)

/-- Whatever is recorded in the end was recorded at some moment. -/
theorem references_scopeWalkAll :
    (scopeWalkAll ts start).references = (moments ts).filterMap Moment.recorded? := by
  rw [← run_walkSteps, ScopeWalk.references_run]
  rfl

/-- Looking names up after the whole walk gives the same references as asking at all of its moments.
-/
theorem freeReferences_eq_openReferences (ts : List Tree) :
    freeReferences ts = openReferences ts := by
  have hFree : freeReferences ts = (scopeWalkAll ts start).freeReferences := rfl
  rw [hFree, ScopeWalk.freeReferences, references_scopeWalkAll, openReferences]
  refine congrArg (List.map Prod.fst) (List.filter_congr fun record _ => ?_)
  rw [Bool.eq_iff_iff, Bool.not_eq_true', ← Bool.not_eq_true, ScopeWalk.declares_iff,
    decide_eq_true_eq]
  simp only [declaresAt_scopeWalkAll]
  grind

/-- At each of its moments, a walk visits a node in the scopes around it. -/
theorem isVisit_of_mem_moments (hm : m ∈ moments ts) : IsVisit ts (openers ts) m := by
  have hStart : Tracks [[]] [[]] start := ⟨rfl, .cons rfl .nil⟩
  exact ((balanced_walkSteps ts).tracks hStart).2 m hm

/-- The walk takes, at a place, the steps of the node that it visits there, and no others. -/
theorem exists_moment_iff {place : Place} {step : ScopeStep} :
    (∃ m ∈ moments ts, m.place = place ∧ m.step = step) ↔
      ∃ t scopes, Visits ts place t scopes ∧ step ∈ t.ownSteps := by
  constructor
  · rintro ⟨m, hm, rfl, rfl⟩
    obtain ⟨t, scopes, hVisits, hOwn, -⟩ := isVisit_of_mem_moments hm
    exact ⟨t, scopes, hVisits, hOwn⟩
  · rintro ⟨t, scopes, hVisits, hOwn⟩
    have hMem := hVisits.scopeSteps_subset (mem_scopeSteps_of_mem_ownSteps hOwn)
    exact ScopeWalk.exists_mem_moments_iff.mpr hMem

/-- At a visited node, the open scopes are those that the visit names. -/
theorem names_of_visits (hm : m ∈ moments ts) (hStep : m.step ≠ .leave) {t : Tree}
    {scopes : List Place} (h : Visits ts m.place t scopes) :
    NamesScopes (openers ts) m.state.chain scopes := by
  obtain ⟨t', scopes', hVisits, -, hNames⟩ := isVisit_of_mem_moments hm
  obtain ⟨-, rfl⟩ := hVisits.unique h
  exact hNames hStep

/-- References are recorded in the order of their places, and so each one once. -/
theorem pairwise_recorded (ts : List Tree) :
    ((moments ts).filter fun m => m.recorded?.isSome).Pairwise
      fun m m' => Precedes m.place m'.place := by
  have hRefers : ∀ m : Moment, m.recorded?.isSome = m.step.isRefer := by
    rintro ⟨place, step, state⟩
    cases step <;> rfl
  have hPlaces : ((moments ts).filter fun m => m.recorded?.isSome).map Moment.place =
      placesOf ScopeStep.isRefer (walkSteps ts) := by
    conv_rhs => rw [← ScopeWalk.map_moments (w := start) (walkSteps ts)]
    rw [placesOf, List.filter_map, List.map_map]
    simp only [hRefers]
    rfl
  have hOrder := pairwise_walkSteps ts
  rw [← hPlaces] at hOrder
  exact List.pairwise_map.mp hOrder

/-- A walk over a node leaves all scopes that it opens. -/
theorem chain_scopeWalk (t : Tree) (w : ScopeWalk) : (scopeWalk t w).chain = w.chain := by
  have hVisits : Visits [t] [0] t [[]] := .top rfl
  rw [← run_scopeSteps t [0]]
  exact ((balanced_scopeSteps t hVisits).chain_run w).1

/-- The first scope is the outermost open one at every moment. -/
theorem exists_chain_eq (hm : m ∈ moments ts) : ∃ chain, m.state.chain = chain ++ [0] := by
  obtain ⟨chain, hChain⟩ := ((balanced_walkSteps ts).chain_run start).2 m hm
  exact ⟨chain, hChain.symm⟩

/-- The scope around all the trees holds `var` at every moment. -/
theorem holdsVarAt_zero (hm : m ∈ moments ts) : m.state.holdsVarAt 0 = true := by
  have hKept : ∀ (w : ScopeWalk) step, 0 < w.scopes.length ∧ w.holdsVarAt 0 = true →
      0 < (w.take step).scopes.length ∧ (w.take step).holdsVarAt 0 = true := by
    rintro w step ⟨hOpened, hHolds⟩
    rw [ScopeWalk.length_scopes_take, ScopeWalk.holdsVarAt_take step hOpened]
    exact ⟨Nat.lt_of_lt_of_le hOpened (Nat.le_add_right _ _), hHolds⟩
  exact ((ScopeWalk.of_kept (w := start) hKept ⟨Nat.one_pos, rfl⟩ (walkSteps ts)).1 m hm).2

/-- A declaration always finds a scope. -/
theorem exists_target? (hm : m ∈ moments ts) (toVarScope : Bool) :
    ∃ id ∈ m.state.chain, m.state.target? toVarScope = some id := by
  obtain ⟨chain, hChain⟩ := exists_chain_eq hm
  have hFound : (m.state.target? toVarScope).isSome = true := by
    unfold ScopeWalk.target?
    split
    · refine List.find?_isSome.mpr ⟨0, ?_, holdsVarAt_zero hm⟩
      rw [hChain]
      exact List.mem_append_right _ (List.mem_singleton_self 0)
    · rw [hChain]
      simp
  obtain ⟨id, hTarget⟩ := Option.isSome_iff_exists.mp hFound
  exact ⟨id, ScopeWalk.mem_chain_of_target? hTarget, hTarget⟩

/-- A step that declares a name does so in an open scope. -/
theorem exists_declared? (hm : m ∈ moments ts) {name : String}
    (hStep : m.step = .bind name ∨ m.step = .hoist name) :
    ∃ id ∈ m.state.chain, m.declared? = some (id, name) := by
  have hDeclared : ∃ toVarScope,
      m.declared? = (m.state.target? toVarScope).map fun id => (id, name) := by
    unfold Moment.declared?
    rcases hStep with hStep | hStep <;> rw [hStep]
    · exact ⟨_, rfl⟩
    · exact ⟨true, rfl⟩
  obtain ⟨toVarScope, hDeclared⟩ := hDeclared
  obtain ⟨id, hOpen, hTarget⟩ := exists_target? hm toVarScope
  exact ⟨id, hOpen, by rw [hDeclared, hTarget, Option.map_some]⟩

end

/-- A walk over several trees keeps sound books of scopes. -/
structure KeepsScopes (ts : List Tree) : Prop where
  /-- The walk goes through the moments of its steps. -/
  walk : start.run (walkSteps ts) = scopeWalkAll ts start
  /-- At a place, it takes the steps of the node that it visits there, and no others. -/
  visits : ∀ place step, (∃ m ∈ moments ts, m.place = place ∧ m.step = step) ↔
    ∃ t scopes, Visits ts place t scopes ∧ step ∈ t.ownSteps
  /-- A walk over a node leaves the open scopes as they were. -/
  balanced : ∀ t ∈ ts.flatMap preorder, ∀ w : ScopeWalk, (scopeWalk t w).chain = w.chain
  /-- The scope around all trees stays open, and it holds `var`. -/
  based : ∀ m ∈ moments ts, m.state.chain.getLast? = some 0 ∧ m.state.holdsVarAt 0 = true
  closed : (scopeWalkAll ts start).chain = [0]
  /-- Whichever way a name is declared at a moment, there is an open scope for it. -/
  targets : ∀ m ∈ moments ts, ∀ toVarScope, ∃ id ∈ m.state.chain,
    m.state.target? toVarScope = some id
  /-- No name is dropped: it is declared in an open scope, which still declares it in the end. -/
  declares : ∀ m ∈ moments ts, ∀ name, m.step = .bind name ∨ m.step = .hoist name →
    ∃ id ∈ m.state.chain, m.declared? = some (id, name) ∧
      (scopeWalkAll ts start).DeclaresAt id name
  /-- Scopes are told apart by the places at which they are opened. -/
  distinct : (openers ts).Nodup
  /-- The open scopes at a moment are those around its place. -/
  chains : ∀ m ∈ moments ts, m.step ≠ .leave → ∀ t scopes, Visits ts m.place t scopes →
    NamesScopes (openers ts) m.state.chain scopes
  /-- What is recorded are the references, each with the scopes that are open at it. -/
  records : (scopeWalkAll ts start).references = (moments ts).filterMap Moment.recorded?
  /-- They are recorded in the order of their places, and so each one once. -/
  ordered : ((moments ts).filter fun m => m.recorded?.isSome).Pairwise
    fun m m' => Precedes m.place m'.place

/-- The walk over any trees keeps sound books. -/
theorem keepsScopes (ts : List Tree) : KeepsScopes ts where
  walk := run_walkSteps ts
  visits _ _ := exists_moment_iff
  balanced t _ := chain_scopeWalk t
  based m hm := by
    obtain ⟨chain, hChain⟩ := exists_chain_eq hm
    exact ⟨by rw [hChain, List.getLast?_concat], holdsVarAt_zero hm⟩
  closed := by
    rw [← run_walkSteps]
    exact ((balanced_walkSteps ts).chain_run start).1
  targets _ hm := exists_target? hm
  declares m hm name hStep := by
    obtain ⟨id, hOpen, hDeclared⟩ := exists_declared? hm hStep
    exact ⟨id, hOpen, hDeclared, declaresAt_scopeWalkAll.mpr ⟨m, hm, hDeclared⟩⟩
  distinct := nodup_openers ts
  chains _ hm hStep _ _ := names_of_visits hm hStep
  records := references_scopeWalkAll
  ordered := pairwise_recorded ts

end Tree

/-- The scopes of a hoisted macro call are kept soundly all along the walk over its arguments, and
the references of its site are those recorded there which no scope open at them declares, be it
before the reference or behind it. -/
theorem MacroSite.references_keepScopes (f call : Tree) {name : MacroName}
    (hHoisted : name.base.isHoisted = true) :
    Tree.KeepsScopes call.callArguments ∧
      (MacroSite.ofCall f call name).references = Tree.openReferences call.callArguments := by
  refine ⟨Tree.keepsScopes call.callArguments, ?_⟩
  rw [MacroSite.ofCall, if_pos hHoisted]
  exact Tree.freeReferences_eq_openReferences call.callArguments

/-- A function that uses two names before it declares them, one by `var` in a block. -/
def lateNamesCall : Tree :=
  .node .call ⟨17, 90⟩
    [.node (.reference "vineOptions") ⟨17, 28⟩ [],
      .node .object ⟨29, 89⟩
        [.node .property ⟨31, 87⟩
          [.node (.name "f") ⟨31, 32⟩ [],
            .node .arrow ⟨34, 87⟩
              [.node .parameters ⟨34, 36⟩ [],
                .node .functionBody ⟨40, 87⟩
                  [.node .expressionStatement ⟨42, 51⟩
                    [.node .call ⟨42, 50⟩
                      [.node (.reference "check") ⟨42, 47⟩ [],
                        .node (.reference "a") ⟨48, 49⟩ []]],
                    .node .block ⟨52, 65⟩
                      [.node (.variableStatement .var) ⟨54, 63⟩
                        [.node (.declarator .var) ⟨58, 63⟩
                          [.node (.binding "a") ⟨58, 59⟩ [],
                            .node (.reference "b") ⟨62, 63⟩ []]]],
                    .node (.function .declaration) ⟨66, 85⟩
                      [.node (.binding "check") ⟨75, 80⟩ [], .node .parameters ⟨80, 82⟩ [],
                        .node .functionBody ⟨83, 85⟩ []]]]]]]

theorem references_keepScopes_lateNames :
    MacroBase.options.isHoisted = true ∧
      ((Tree.moments lateNamesCall.callArguments).filterMap Moment.recorded?).map
          (fun (r, chain) => (r.name, chain)) =
        [("check", [1, 0]), ("a", [1, 0]), ("b", [2, 1, 0])] ∧
      Tree.KeepsScopes lateNamesCall.callArguments ∧
      (MacroSite.ofCall lateNamesCall lateNamesCall ⟨.options, none⟩).references =
        Tree.openReferences lateNamesCall.callArguments ∧
      Tree.openReferences lateNamesCall.callArguments = [⟨"b", ⟨62, 63⟩⟩] :=
  have hSound :=
    @MacroSite.references_keepScopes lateNamesCall lateNamesCall ⟨.options, none⟩ rfl
  ⟨rfl, by decide, hSound.1, hSound.2, by decide⟩

end ComponentAnalysis
