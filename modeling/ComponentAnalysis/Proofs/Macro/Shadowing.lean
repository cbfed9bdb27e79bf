import ComponentAnalysis.Macro.Site
import ComponentAnalysis.Proofs.Macro.Comparison

/-! No reference of a hoisted macro call is hidden by a declaration elsewhere in the arguments,
apart from the places that are named here: those at which the walk over scopes binds a name too far.
-/
namespace ComponentAnalysis

namespace Tree

open Scoping

/-- The walk binds the name of a reference further out at a node than a module does. -/
inductive Overreaches (r : Reference) (inVarPattern : Bool) : Tree → Prop
  /-- The name is declared by a type alias, an interface or a part of one. -/
  | typeName {t : Tree} (hKind : t.kind.isTypeOnly = true)
      (hBinds : (walked inVarPattern t).Binds r.name) : Overreaches r inVarPattern t
  /-- The name is that of a class expression. -/
  | className {s : Span} {cs : List Tree} (hName : r.name ∈ classNames cs) :
      Overreaches r inVarPattern (node .classExpression s cs)
  /-- The name leaves the block that declares it: that of a function declared in a block, or one
  declared in a block within a `var` pattern. -/
  | blockName {t : Tree} {walked module : Scoping}
      (hParts : t.blockParts inVarPattern = some (walked, module))
      (hWalked : r.name ∈ walked.functionNames) (hModule : r.name ∉ module.functionNames) :
      Overreaches r inVarPattern t
  /-- The reference stands in the signature of a function whose body declares the name. -/
  | bodyName {t : Tree} (hKind : t.isFunction = true)
      (hFree : r ∈ (functionScoping t.children).1.free)
      (hName : r.name ∈ (functionScoping t.children).2.blockNames) : Overreaches r inVarPattern t

/-- Each way to bind a name too far can be tested at the node. -/
theorem overreaches_iff {r : Reference} {inVarPattern : Bool} {t : Tree} :
    Overreaches r inVarPattern t ↔
      (t.kind.isTypeOnly = true ∧ (walked inVarPattern t).Binds r.name) ∨
      (t.kind = .classExpression ∧ r.name ∈ classNames t.children) ∨
      ((t.blockParts inVarPattern).any fun (walked, module) =>
        r.name ∈ walked.functionNames ∧ r.name ∉ module.functionNames) = true ∨
      t.isFunction = true ∧ r ∈ (functionScoping t.children).1.free ∧
        r.name ∈ (functionScoping t.children).2.blockNames := by
  simp only [Option.any_eq_true, decide_eq_true_iff]
  constructor
  · intro h
    cases h with
    | typeName hKind hBinds => exact Or.inl ⟨hKind, hBinds⟩
    | className hName => exact Or.inr (Or.inl ⟨rfl, hName⟩)
    | blockName hParts hWalked hModule =>
        exact Or.inr (Or.inr (Or.inl ⟨_, hParts, hWalked, hModule⟩))
    | bodyName hKind hFree hName => exact Or.inr (Or.inr (Or.inr ⟨hKind, hFree, hName⟩))
  · rintro (⟨hKind, hBinds⟩ | ⟨hKind, hName⟩ | ⟨_, hParts, hWalked, hModule⟩ |
      ⟨hKind, hFree, hName⟩)
    · exact .typeName hKind hBinds
    · obtain ⟨kind, s, cs⟩ := t
      cases hKind
      exact .className hName
    · exact .blockName hParts hWalked hModule
    · exact .bodyName hKind hFree hName

instance (r : Reference) (inVarPattern : Bool) (t : Tree) :
    Decidable (Overreaches r inVarPattern t) := decidable_of_iff _ overreaches_iff.symm

section

variable {r : Reference} (ts : List Tree)
  (hEach : ∀ t ∈ ts, ∀ inVarPattern,
    (∀ v ∈ visited inVarPattern t, ¬ Overreaches r v.1 v.2) →
      Exposes r (scoping t) (walked inVarPattern t))

include hEach

/-- What several trees leave open by the rules of modules, the walk leaves open as well, if it does
so for each of them. -/
theorem scopingAll_exposes {inVarPattern : Bool}
    (hNone : ∀ v ∈ visitedAll inVarPattern ts, ¬ Overreaches r v.1 v.2) :
    Exposes r (scopingAll ts) (walkedAll inVarPattern ts) := by
  induction ts generalizing inVarPattern with
  | nil => exact Exposes.refl
  | cons t ts ih =>
      obtain ⟨hHead, hTail⟩ := List.forall_mem_append.mp hNone
      exact (hEach t List.mem_cons_self _ hHead).append
        (ih (fun u hu => hEach u (List.mem_cons_of_mem t hu)) hTail)

/-- The signature and the body of a function may be taken together, as the walk does. -/
theorem functionScoping_exposes {inVarPattern : Bool}
    (hNone : ∀ v ∈ visitedAll inVarPattern ts, ¬ Overreaches r v.1 v.2) :
    Exposes r ((functionScoping ts).1 ++ (functionScoping ts).2) (walkedAll inVarPattern ts) := by
  induction ts generalizing inVarPattern with
  | nil => exact Exposes.refl
  | cons t ts ih =>
      obtain ⟨hHead, hTail⟩ := List.forall_mem_append.mp hNone
      have hFirst := hEach t List.mem_cons_self _ hHead
      have hRest := ih (fun u hu => hEach u (List.mem_cons_of_mem t hu)) hTail
      unfold functionScoping
      split
      · cases ‹t :: ts = []›
      · rename_i hEq
        cases hEq
        exact hFirst.insert hRest
      · rename_i hEq
        cases hEq
        rw [append_assoc]
        exact hFirst.append hRest

/-- A class is compared in its two parts, the name of the class being in both. -/
theorem classScoping_exposes {inVarPattern : Bool}
    (hNone : ∀ v ∈ visitedAll inVarPattern ts, ¬ Overreaches r v.1 v.2) :
    Exposes r (.declare (classNames ts) ++ (classScoping ts).1) (walkedClass inVarPattern ts).1 ∧
      Exposes r (classScoping ts).2 (walkedClass inVarPattern ts).2 := by
  induction ts generalizing inVarPattern with
  | nil => exact ⟨Exposes.refl, Exposes.refl⟩
  | cons t ts ih =>
      obtain ⟨hHead, hTail⟩ := List.forall_mem_append.mp hNone
      have hFirst := hEach t List.mem_cons_self _ hHead
      have hRest := ih (fun u hu => hEach u (List.mem_cons_of_mem t hu)) hTail
      unfold classScoping
      split
      · cases ‹t :: ts = []›
      · rename_i hEq
        cases hEq
        exact ⟨hFirst.insert hRest.1, hRest.2⟩
      · rename_i name _ _ _ hEq
        cases hEq
        rw [holdsDeclarator, Bool.not_false, Bool.and_true] at hRest
        exact ⟨hFirst.append hRest.1, hRest.2.declare_append [name]⟩
      · rename_i hEq
        cases hEq
        rw [walkedClass]
        · exact ⟨Exposes.of_nil rfl (by simp [Binds]), scopingAll_exposes (t :: ts) hEach hNone⟩
        all_goals assumption

end

/-- Unless a name is bound too far, it leaves a block in the walk only if it does in a module. -/
theorem names_of_not_overreaches {r : Reference} {t : Tree} {inVarPattern : Bool}
    {walked module : Scoping} (h : ¬ Overreaches r inVarPattern t)
    (hParts : t.blockParts inVarPattern = some (walked, module))
    (hName : r.name ∈ walked.functionNames) : r.name ∈ module.functionNames := by
  by_contra hModule
  exact h (.blockName hParts hName hModule)

/-- A reference that a tree leaves open in a module is left open by the walk, if no node on the way
binds its name too far. -/
theorem scoping_exposes {r : Reference} (t : Tree) {inVarPattern : Bool}
    (hNone : ∀ v ∈ visited inVarPattern t, ¬ Overreaches r v.1 v.2) :
    Exposes r (scoping t) (walked inVarPattern t) := by
  induction t generalizing inVarPattern with
  | node kind span children ih =>
      have hHere := hNone _ (mem_visited_self _ _)
      -- Below a node that opens no pattern, the walk meets all children.
      have hBelow : visited inVarPattern (node kind span children) =
          (inVarPattern, node kind span children) :: visitedAll inVarPattern children →
          ∀ v ∈ visitedAll inVarPattern children, ¬ Overreaches r v.1 v.2 := by
        intro hEq v hv
        rw [hEq] at hNone
        exact hNone v (List.mem_cons_of_mem _ hv)
      have hFunction : visited inVarPattern (node kind span children) =
          (inVarPattern, node kind span children) :: visitedAll inVarPattern children →
          (node kind span children).isFunction = true →
          Exposes r ((functionScoping children).1 ++ (functionScoping children).2.block).function
            (walkedAll inVarPattern children).function := by
        intro hEq hKind
        have hParts := functionScoping_exposes children ih (hBelow hEq)
        exact hParts.functionBody fun hFree hName => hHere (.bodyName hKind hFree hName)
      cases form (node kind span children) with
      | reference name => exact Exposes.refl
      | binding name =>
          cases inVarPattern with
          | true => exact Exposes.declare_declareVar [name]
          | false => exact Exposes.refl
      | declarator kind _ pattern rest =>
          obtain ⟨hPattern, hRest⟩ := List.forall_mem_append.mp (List.forall_mem_cons.mp hNone).2
          have hPattern := ih pattern List.mem_cons_self hPattern
          have hRest :=
            scopingAll_exposes rest (fun t ht _ => ih t (List.mem_cons_of_mem _ ht)) hRest
          rw [scoping, walked]
          refine Exposes.append ?_ hRest
          split
          · exact hPattern.of_hoist
          · exact hPattern
      | functionDeclaration =>
          exact (Exposes.declare_declareVar _).append (hFunction rfl rfl)
      | functionExpression => exact hFunction rfl rfl
      | arrow => exact hFunction rfl rfl
      | classDefinition =>
          obtain ⟨hAround, hInside⟩ := classScoping_exposes children ih (hBelow rfl)
          rw [scoping, ← append_assoc]
          exact hAround.append (hInside.block (names_of_not_overreaches hHere rfl))
      | classExpression =>
          obtain ⟨hAround, hInside⟩ := classScoping_exposes children ih (hBelow rfl)
          have hAround := hAround.of_declare fun hName => hHere (.className hName)
          exact hAround.append (hInside.block (names_of_not_overreaches hHere rfl))
      | staticBlock => exact (scopingAll_exposes children ih (hBelow rfl)).function
      | switchStatement _ value cases =>
          obtain ⟨hValue, hCases⟩ := List.forall_mem_append.mp (hBelow rfl)
          have hValue := ih value List.mem_cons_self hValue
          have hCases :=
            scopingAll_exposes cases (fun t ht _ => ih t (List.mem_cons_of_mem _ ht)) hCases
          exact hValue.append (hCases.block (names_of_not_overreaches hHere rfl))
      | enumBody =>
          have hMembers := scopingAll_exposes children ih (hBelow rfl)
          have hNames : r.name ∈ (walkedAll inVarPattern children).functionNames →
              r.name ∈ (scopingAll children).functionNames := names_of_not_overreaches hHere rfl
          exact (hMembers.declare_append _).block hNames
      | namespaceDeclaration _ name rest =>
          obtain ⟨hName, hRest⟩ := List.forall_mem_append.mp (hBelow rfl)
          have hName := ih name List.mem_cons_self hName
          have hRest :=
            scopingAll_exposes rest (fun t ht _ => ih t (List.mem_cons_of_mem _ ht)) hRest
          exact hName.append hRest.function
      | typeOnly _ _ _ hType hScoping =>
          rw [hScoping]
          exact Exposes.of_nil rfl fun hBinds => hHere (.typeName hType hBinds)
      | block _ _ _ hScoping hWalked hVisited hParts =>
          rw [hScoping, hWalked]
          exact (scopingAll_exposes children ih (hBelow (hVisited _))).block
            (names_of_not_overreaches hHere (hParts _))
      | plain _ _ _ hScoping hWalked hVisited =>
          rw [hScoping, hWalked]
          exact scopingAll_exposes children ih (hBelow (hVisited _))

end Tree

/-- Every reference in the arguments of a hoisted macro call that nothing in them binds is reported,
unless its name is bound too far at a node of the arguments. -/
theorem MacroSite.mem_references_of_unbound {f call : Tree} {name : MacroName} {r : Reference}
    (hHoisted : name.base.isHoisted = true) (hFree : r ∈ Tree.unboundReferences call.callArguments)
    (hNone : ∀ v ∈ Tree.visitedAll false call.callArguments, ¬ Tree.Overreaches r v.1 v.2) :
    r ∈ (MacroSite.ofCall f call name).references := by
  have hArguments : Scoping.Exposes r (Tree.scopingAll call.callArguments)
      (Tree.walkedAll false call.callArguments) :=
    Tree.scopingAll_exposes call.callArguments (fun t _ _ => Tree.scoping_exposes t) hNone
  rw [MacroSite.ofCall, if_pos hHoisted, Tree.freeReferences_eq]
  exact (hArguments.function.free hFree).resolve_right Scoping.not_binds_function

/-- A default value that has the name of a parameter of the validator behind it. -/
def validatorCall : Tree :=
  .node .call ⟨31, 88⟩
    [.node .member ⟨31, 51⟩
      [.node (.reference "vineProp") ⟨31, 39⟩ [], .node (.name "withDefault") ⟨40, 51⟩ []],
      .node (.reference "later") ⟨52, 57⟩ [],
      .node .arrow ⟨59, 87⟩
        [.node .parameters ⟨59, 74⟩
          [.node .parameter ⟨60, 73⟩
            [.node (.binding "later") ⟨60, 65⟩ [],
              .node .typeAscription ⟨65, 73⟩ [.node .otherType ⟨67, 73⟩ []]]],
          .node .functionBody ⟨78, 87⟩
            [.node .expressionStatement ⟨78, 87⟩
              [.node .binary ⟨78, 87⟩
                [.node (.reference "later") ⟨78, 83⟩ [], .node (.number "0") ⟨86, 87⟩ []]]]]]

/-- A default value is reported although a parameter further back has its name. -/
theorem mem_references_validatorCall :
    MacroBase.prop.isHoisted = true ∧
      ⟨"later", ⟨52, 57⟩⟩ ∈ Tree.unboundReferences validatorCall.callArguments ∧
      (∀ v ∈ Tree.visitedAll false validatorCall.callArguments,
        ¬ Tree.Overreaches ⟨"later", ⟨52, 57⟩⟩ v.1 v.2) ∧
      ⟨"later", ⟨52, 57⟩⟩ ∈
        (MacroSite.ofCall validatorCall validatorCall ⟨.prop, some .withDefault⟩).references :=
  ⟨rfl, by decide, by decide, MacroSite.mem_references_of_unbound rfl (by decide) (by decide)⟩

/-- Every reference in the arguments of a macro call that nothing in them binds is reported, if the
macro is hoisted. -/
def Tree.ReportsUnbound (call : Tree) : Prop :=
  ∀ f name, call.macroName? = some name → name.base.isHoisted = true →
    ∀ r ∈ unboundReferences call.callArguments, r ∈ (MacroSite.ofCall f call name).references

/-- A class expression and, behind it, a reference to its name. -/
def classDefaultCall : Tree :=
  .node .call ⟨27, 62⟩
    [.node .member ⟨27, 47⟩
      [.node (.reference "vineProp") ⟨27, 35⟩ [], .node (.name "withDefault") ⟨36, 47⟩ []],
      .node .classExpression ⟨48, 58⟩
        [.node (.binding "B") ⟨54, 55⟩ [], .node .classBody ⟨56, 58⟩ []],
      .node (.reference "B") ⟨60, 61⟩ []]

/-- A function declared in a block and, behind the block, a reference to its name. -/
def blockFunctionCall : Tree :=
  .node .call ⟨27, 78⟩
    [.node (.reference "vineProp") ⟨27, 35⟩ [],
      .node .typeArguments ⟨35, 38⟩ [.node .otherType ⟨36, 37⟩ []],
      .node .arrow ⟨39, 77⟩
        [.node .parameters ⟨39, 41⟩ [],
          .node .functionBody ⟨45, 77⟩
            [.node .block ⟨47, 66⟩
              [.node (.function .declaration) ⟨49, 64⟩
                [.node (.binding "q") ⟨58, 59⟩ [], .node .parameters ⟨59, 61⟩ [],
                  .node .functionBody ⟨62, 64⟩ []]],
              .node .returnStatement ⟨67, 75⟩ [.node (.reference "q") ⟨74, 75⟩ []]]]]

/-- A type alias and, behind it, a reference to a value of its name. -/
def typeAliasCall : Tree :=
  .node .call ⟨17, 60⟩
    [.node (.reference "vineOptions") ⟨17, 28⟩ [],
      .node .object ⟨29, 59⟩
        [.node .property ⟨31, 57⟩
          [.node (.name "f") ⟨31, 32⟩ [],
            .node .arrow ⟨34, 57⟩
              [.node .parameters ⟨34, 36⟩ [],
                .node .functionBody ⟨40, 57⟩
                  [.node .typeAlias ⟨42, 53⟩
                    [.node (.binding "T") ⟨47, 48⟩ [], .node .otherType ⟨51, 52⟩ []],
                    .node .expressionStatement ⟨54, 55⟩ [.node (.reference "T") ⟨54, 55⟩ []]]]]]]

/-- Three references that nothing binds and that are not reported. -/
theorem not_reportsUnbound :
    ¬ classDefaultCall.ReportsUnbound ∧ ¬ blockFunctionCall.ReportsUnbound ∧
      ¬ typeAliasCall.ReportsUnbound := by
  refine ⟨fun h => ?_, fun h => ?_, fun h => ?_⟩
  · have hClass := h default ⟨.prop, some .withDefault⟩ (by decide) rfl ⟨"B", ⟨60, 61⟩⟩ (by decide)
    exact absurd hClass (by decide)
  · have hFunction := h default ⟨.prop, none⟩ (by decide) rfl ⟨"q", ⟨74, 75⟩⟩ (by decide)
    exact absurd hFunction (by decide)
  · have hAlias := h default ⟨.options, none⟩ (by decide) rfl ⟨"T", ⟨54, 55⟩⟩ (by decide)
    exact absurd hAlias (by decide)

end ComponentAnalysis
