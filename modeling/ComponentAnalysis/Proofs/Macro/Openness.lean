import ComponentAnalysis.Macro.Site
import ComponentAnalysis.Proofs.Component.BodyDeclarations
import ComponentAnalysis.Proofs.Macro.Comparison

/-! No bound or erased name is a free reference of a hoisted macro call, apart from the places that
are named here: those at which the walk over scopes does not bind a name far enough or enters a
type. -/
namespace ComponentAnalysis

namespace Tree

open Scoping

/-- The walk leaves a reference open at a node that a module erases or that binds it. -/
inductive Underreaches (r : Reference) (inVarPattern : Bool) : Tree → Prop
  /-- The reference stands in a type alias, an interface, an `implements` clause or a signature. -/
  | typePosition {t : Tree} (hKind : t.kind.isTypeOnly = true)
      (hFree : r ∈ (walked inVarPattern t).free) : Underreaches r inVarPattern t
  /-- The name is that of a member of the enum around. -/
  | enumMember {s : Span} {cs : List Tree} (hName : r.name ∈ cs.filterMap enumMemberName?)
      (hFree : r ∈ (scopingAll cs).free) : Underreaches r inVarPattern (node .enumBody s cs)
  /-- The name stands in a `var` pattern behind a declarator in the pattern. -/
  | varPattern {s : Span} {pattern : Tree} {rest : List Tree}
      (hName : (scoping pattern).Binds r.name)
      (hWalked : r.name ∉ (walked true pattern).functionNames) :
      Underreaches r inVarPattern (node (.declarator .var) s (pattern :: rest))

/-- Each way to bind a name not far enough can be tested at the node. -/
theorem underreaches_iff {r : Reference} {inVarPattern : Bool} {t : Tree} :
    Underreaches r inVarPattern t ↔
      (t.kind.isTypeOnly = true ∧ r ∈ (walked inVarPattern t).free) ∨
      (t.kind = .enumBody ∧ r.name ∈ t.children.filterMap enumMemberName? ∧
        r ∈ (scopingAll t.children).free) ∨
      (t.kind = .declarator .var ∧ (t.children.head?.any fun pattern =>
        (scoping pattern).Binds r.name ∧ r.name ∉ (walked true pattern).functionNames) = true) := by
  simp only [Option.any_eq_true, decide_eq_true_iff]
  constructor
  · intro h
    cases h with
    | typePosition hKind hFree => exact Or.inl ⟨hKind, hFree⟩
    | enumMember hName hFree => exact Or.inr (Or.inl ⟨rfl, hName, hFree⟩)
    | varPattern hName hWalked => exact Or.inr (Or.inr ⟨rfl, _, rfl, hName, hWalked⟩)
  · obtain ⟨kind, s, cs⟩ := t
    rintro (⟨hKind, hFree⟩ | ⟨hKind, hName, hFree⟩ | ⟨hKind, pattern, hHead, hName, hWalked⟩)
    · exact .typePosition hKind hFree
    · cases hKind
      exact .enumMember hName hFree
    · cases hKind
      obtain ⟨rest, hChildren⟩ := List.head?_eq_some_iff.mp hHead
      cases hChildren
      exact .varPattern hName hWalked

instance (r : Reference) (inVarPattern : Bool) (t : Tree) :
    Decidable (Underreaches r inVarPattern t) := decidable_of_iff _ underreaches_iff.symm

/-- Several trees bind what one of them binds. -/
theorem binds_scopingAll {ts : List Tree} {t : Tree} {name : String} (ht : t ∈ ts)
    (h : (scoping t).Binds name) : (scopingAll ts).Binds name := by
  induction ts with
  | nil => cases ht
  | cons u ts ih =>
      rw [scopingAll, binds_append]
      rcases List.mem_cons.mp ht with rfl | ht
      · exact Or.inl h
      · exact Or.inr (ih ht)

/-- The code around a pattern sees all names of the pattern. -/
theorem Binds.scoping {t : Tree} {name : String} (h : t.Binds name) :
    (scoping t).Binds name := by
  induction h with
  | plain span children => exact Or.inl List.mem_cons_self
  | nested span children hKind hChild _ ih =>
      have hAll := binds_scopingAll hChild ih
      rcases hKind with rfl | rfl | rfl <;> exact hAll
  | property span key value rest _ ih =>
      exact binds_scopingAll (List.mem_cons_of_mem _ List.mem_cons_self) ih
  | withDefault span pattern rest _ ih => exact binds_scopingAll List.mem_cons_self ih

/-- The function around a `var` declarator sees all names of its pattern. -/
theorem Binds.functionNames_declarator {pattern : Tree} {name : String} (h : pattern.Binds name)
    (s : Span) (rest : List Tree) :
    name ∈ (Tree.scoping (node (.declarator .var) s (pattern :: rest))).functionNames := by
  rw [Tree.scoping, if_pos rfl, functionNames_append]
  exact List.mem_append_left _ (List.mem_append.mpr h.scoping)

section

variable {r : Reference} (ts : List Tree)
  (hEach : ∀ t ∈ ts, ∀ inVarPattern,
    (∀ v ∈ visited inVarPattern t, ¬ Underreaches r v.1 v.2) →
      Confines r (walked inVarPattern t) (scoping t))

include hEach

/-- What the walk leaves open of several trees is open in a module too, if that holds of each tree.
-/
theorem walkedAll_confines {inVarPattern : Bool}
    (hNone : ∀ v ∈ visitedAll inVarPattern ts, ¬ Underreaches r v.1 v.2) :
    Confines r (walkedAll inVarPattern ts) (scopingAll ts) := by
  induction ts generalizing inVarPattern with
  | nil => exact Confines.refl
  | cons t ts ih =>
      obtain ⟨hHead, hTail⟩ := List.forall_mem_append.mp hNone
      exact (hEach t List.mem_cons_self _ hHead).append
        (ih (fun u hu => hEach u (List.mem_cons_of_mem t hu)) hTail)

/-- The signature and the body of a function may be taken together, as the walk does. -/
theorem walkedAll_confines_function {inVarPattern : Bool}
    (hNone : ∀ v ∈ visitedAll inVarPattern ts, ¬ Underreaches r v.1 v.2) :
    Confines r (walkedAll inVarPattern ts) ((functionScoping ts).1 ++ (functionScoping ts).2) := by
  induction ts generalizing inVarPattern with
  | nil => exact Confines.refl
  | cons t ts ih =>
      obtain ⟨hHead, hTail⟩ := List.forall_mem_append.mp hNone
      have hFirst := hEach t List.mem_cons_self _ hHead
      have hRest := ih (fun u hu => hEach u (List.mem_cons_of_mem t hu)) hTail
      unfold functionScoping
      split
      · cases ‹t :: ts = []›
      · rename_i hEq
        cases hEq
        exact hFirst.insert hRest
      · rename_i hEq
        cases hEq
        rw [append_assoc]
        exact hFirst.append hRest

/-- In a class the comparison holds around it and, for other names than that of the class, in it. -/
theorem walkedClass_confines {inVarPattern : Bool}
    (hNone : ∀ v ∈ visitedAll inVarPattern ts, ¬ Underreaches r v.1 v.2) :
    Confines r (walkedClass inVarPattern ts).1 (.declare (classNames ts) ++ (classScoping ts).1) ∧
      (r.name ∈ (classScoping ts).2.functionNames →
        r.name ∈ (walkedClass inVarPattern ts).2.functionNames) ∧
      (r.name ∉ classNames ts →
        Exposes r (walkedClass inVarPattern ts).2 (classScoping ts).2) := by
  induction ts generalizing inVarPattern with
  | nil => exact ⟨Confines.refl, id, fun _ => Exposes.refl⟩
  | cons t ts ih =>
      obtain ⟨hHead, hTail⟩ := List.forall_mem_append.mp hNone
      have hFirst := hEach t List.mem_cons_self _ hHead
      have hRest := ih (fun u hu => hEach u (List.mem_cons_of_mem t hu)) hTail
      unfold classScoping
      split
      · cases ‹t :: ts = []›
      · rename_i hEq
        cases hEq
        exact ⟨hFirst.insert hRest.1, hRest.2⟩
      · rename_i name _ _ _ hEq
        cases hEq
        rw [holdsDeclarator, Bool.not_false, Bool.and_true] at hRest
        refine ⟨hFirst.append hRest.1, hRest.2.1, fun hName => ?_⟩
        obtain ⟨hOther, hRestName⟩ := not_or.mp (mt List.mem_cons.mpr hName)
        exact (hRest.2.2 hRestName).append_declare (mt List.mem_singleton.mp hOther)
      · rename_i hDecorator hBinding hEq
        cases hEq
        rw [walkedClass]
        · have hInside := walkedAll_confines (t :: ts) hEach hNone
          have hNames : classNames (t :: ts) = [] := by
            rw [classNames]
            · exact fun s cs us h => hDecorator s cs (List.cons.inj h).1
            · exact fun name s cs us h => hBinding name s cs (List.cons.inj h).1
          rw [hNames]
          exact ⟨Confines.refl, hInside.functionNames, fun _ => hInside.toExposes⟩
        all_goals assumption

/-- The name of a class binds in the code around it, where the walk declares it, at least as far as
in the class. -/
theorem walkedClass_confines_all {inVarPattern : Bool}
    (hNone : ∀ v ∈ visitedAll inVarPattern ts, ¬ Underreaches r v.1 v.2) :
    Confines r ((walkedClass inVarPattern ts).1 ++ (walkedClass inVarPattern ts).2.block)
      (.declare (classNames ts) ++ ((classScoping ts).1 ++ (classScoping ts).2.block)) := by
  obtain ⟨hAround, hFunction, hInside⟩ := walkedClass_confines ts hEach hNone
  rw [← append_assoc]
  refine ⟨?_, ?_⟩
  · by_cases hName : r.name ∈ classNames ts
    · have hBinds := hAround.binds (binds_append.mpr (Or.inl (Or.inl hName)))
      exact Exposes.of_binds (binds_append.mpr (Or.inl hBinds))
    · exact hAround.toExposes.append ((hInside hName).block hFunction)
  · simp only [functionNames_append (b := Scoping.block _), functionNames_block, List.mem_append]
    exact Or.imp hAround.functionNames hFunction

end

/-- A reference that the walk leaves open is open in a module, if no node on the way is erased there
or binds the name further. -/
theorem walked_confines {r : Reference} (t : Tree) {inVarPattern : Bool}
    (hNone : ∀ v ∈ visited inVarPattern t, ¬ Underreaches r v.1 v.2) :
    Confines r (walked inVarPattern t) (scoping t) := by
  induction t generalizing inVarPattern with
  | node kind span children ih =>
      have hHere := hNone _ (mem_visited_self _ _)
      -- Below a node that opens no pattern, the walk meets all children.
      have hBelow : visited inVarPattern (node kind span children) =
          (inVarPattern, node kind span children) :: visitedAll inVarPattern children →
          ∀ v ∈ visitedAll inVarPattern children, ¬ Underreaches r v.1 v.2 := by
        intro hEq v hv
        rw [hEq] at hNone
        exact hNone v (List.mem_cons_of_mem _ hv)
      cases form (node kind span children) with
      | reference name => exact Confines.refl
      | binding name =>
          cases inVarPattern with
          | true => exact Confines.declareVar_declare [name]
          | false => exact Confines.refl
      | declarator kind _ pattern rest =>
          obtain ⟨hPattern, hRest⟩ := List.forall_mem_append.mp (List.forall_mem_cons.mp hNone).2
          have hPattern := ih pattern List.mem_cons_self hPattern
          have hRest :=
            walkedAll_confines rest (fun t ht _ => ih t (List.mem_cons_of_mem _ ht)) hRest
          rw [scoping, walked]
          refine Confines.append ?_ hRest
          split
          · rename_i hVar
            subst hVar
            refine hPattern.hoist fun hBinds => ?_
            by_contra hName
            exact hHere (.varPattern hBinds hName)
          · exact hPattern
      | functionDeclaration =>
          have hParts := walkedAll_confines_function children ih (hBelow rfl)
          exact (Confines.declareVar_declare _).append hParts.bodyBlock.function
      | functionExpression =>
          exact (walkedAll_confines_function children ih (hBelow rfl)).bodyBlock.function
      | arrow => exact (walkedAll_confines_function children ih (hBelow rfl)).bodyBlock.function
      | classDefinition => exact walkedClass_confines_all children ih (hBelow rfl)
      | classExpression =>
          exact (walkedClass_confines_all children ih (hBelow rfl)).of_declare_append
      | staticBlock => exact (walkedAll_confines children ih (hBelow rfl)).function
      | switchStatement _ value cases =>
          obtain ⟨hValue, hCases⟩ := List.forall_mem_append.mp (hBelow rfl)
          have hValue := ih value List.mem_cons_self hValue
          have hCases :=
            walkedAll_confines cases (fun t ht _ => ih t (List.mem_cons_of_mem _ ht)) hCases
          exact hValue.append hCases.block
      | enumBody =>
          have hMembers := walkedAll_confines children ih (hBelow rfl)
          exact hMembers.declare_block fun hName hFree => hHere (.enumMember hName hFree)
      | namespaceDeclaration _ name rest =>
          obtain ⟨hName, hRest⟩ := List.forall_mem_append.mp (hBelow rfl)
          have hName := ih name List.mem_cons_self hName
          have hRest :=
            walkedAll_confines rest (fun t ht _ => ih t (List.mem_cons_of_mem _ ht)) hRest
          exact hName.append hRest.function
      | typeOnly _ _ _ hType hScoping =>
          rw [hScoping]
          exact ⟨⟨fun hBinds => absurd hBinds not_binds_empty,
            fun hFree => absurd (.typePosition hType hFree) hHere⟩,
            fun hName => absurd hName List.not_mem_nil⟩
      | block _ _ _ hScoping hWalked hVisited hParts =>
          rw [hScoping, hWalked]
          exact (walkedAll_confines children ih (hBelow (hVisited _))).block
      | plain _ _ _ hScoping hWalked hVisited =>
          rw [hScoping, hWalked]
          exact walkedAll_confines children ih (hBelow (hVisited _))

end Tree

/-- Every reference that is reported for a macro call stands in its arguments and nothing in them
binds it, unless a node of the arguments is erased or binds the name and the walk does not see it.
-/
theorem MacroSite.unbound_of_mem_references {f call : Tree} {name : MacroName} {r : Reference}
    (hReported : r ∈ (MacroSite.ofCall f call name).references)
    (hNone : ∀ v ∈ Tree.visitedAll false call.callArguments, ¬ Tree.Underreaches r v.1 v.2) :
    (∃ n ∈ call.callArguments.flatMap Tree.preorder, r.At n) ∧
      r ∈ Tree.unboundReferences call.callArguments := by
  have hReferences : r ∈ Tree.freeReferences call.callArguments := by
    simp only [MacroSite.ofCall] at hReported
    split at hReported
    · exact hReported
    · cases hReported
  have hArguments : Scoping.Confines r (Tree.walkedAll false call.callArguments)
      (Tree.scopingAll call.callArguments) :=
    Tree.walkedAll_confines call.callArguments (fun t _ _ => Tree.walked_confines t) hNone
  refine ⟨Tree.mem_freeReferences hReferences, ?_⟩
  rw [Tree.freeReferences_eq] at hReferences
  exact (hArguments.function.free hReferences).resolve_right Scoping.not_binds_function

/-- A validator whose parameter has a type and whose body has one more. -/
def typedValidatorCall : Tree :=
  .node .call ⟨30, 91⟩
    [.node (.reference "vineProp") ⟨30, 38⟩ [],
      .node .typeArguments ⟨38, 46⟩ [.node .otherType ⟨39, 45⟩ []],
      .node .arrow ⟨47, 90⟩
        [.node .parameters ⟨47, 56⟩
          [.node .parameter ⟨48, 55⟩
            [.node (.binding "v") ⟨48, 49⟩ [],
              .node .typeAscription ⟨49, 55⟩ [.node .otherType ⟨51, 55⟩ []]]],
          .node .functionBody ⟨60, 90⟩
            [.node .expressionStatement ⟨60, 90⟩
              [.node .binary ⟨60, 90⟩
                [.node .parenthesized ⟨60, 77⟩
                  [.node .asType ⟨61, 76⟩
                    [.node (.reference "v") ⟨61, 62⟩ [],
                      .node .otherType ⟨66, 76⟩
                        [.node .typeArguments ⟨71, 76⟩ [.node .otherType ⟨72, 75⟩ []]]]],
                  .node (.reference "fallback") ⟨82, 90⟩ []]]]]]

/-- Types in the arguments do no harm: the one reference that is reported is one that nothing binds.
-/
theorem unbound_typedValidatorCall :
    ⟨"fallback", ⟨82, 90⟩⟩ ∈
      (MacroSite.ofCall typedValidatorCall typedValidatorCall ⟨.prop, none⟩).references ∧
      (∀ v ∈ Tree.visitedAll false typedValidatorCall.callArguments,
        ¬ Tree.Underreaches ⟨"fallback", ⟨82, 90⟩⟩ v.1 v.2) ∧
      (∃ n ∈ typedValidatorCall.callArguments.flatMap Tree.preorder,
        Reference.At ⟨"fallback", ⟨82, 90⟩⟩ n) ∧
      ⟨"fallback", ⟨82, 90⟩⟩ ∈ Tree.unboundReferences typedValidatorCall.callArguments :=
  ⟨by decide, by decide,
    @MacroSite.unbound_of_mem_references typedValidatorCall typedValidatorCall ⟨.prop, none⟩ _
      (by decide) (by decide)⟩

/-- Nothing in the arguments of a macro call binds a reference that is reported for it. -/
def Tree.ReportsUnboundOnly (call : Tree) : Prop :=
  ∀ f name, call.macroName? = some name →
    ∀ r ∈ (MacroSite.ofCall f call name).references, r ∈ unboundReferences call.callArguments

/-- An enum in which a member refers to another one. -/
def enumMemberCall : Tree :=
  .node .call ⟨17, 70⟩
    [.node (.reference "vineOptions") ⟨17, 28⟩ [],
      .node .object ⟨29, 69⟩
        [.node .property ⟨31, 67⟩
          [.node (.name "f") ⟨31, 32⟩ [],
            .node .arrow ⟨34, 67⟩
              [.node .parameters ⟨34, 36⟩ [],
                .node .functionBody ⟨40, 67⟩
                  [.node .enumDeclaration ⟨42, 65⟩
                    [.node (.binding "E") ⟨47, 48⟩ [],
                      .node .enumBody ⟨49, 65⟩
                        [.node .enumMember ⟨51, 56⟩
                          [.node (.name "A") ⟨51, 52⟩ [], .node (.number "1") ⟨55, 56⟩ []],
                          .node .enumMember ⟨58, 63⟩
                            [.node (.name "B") ⟨58, 59⟩ [],
                              .node (.reference "A") ⟨62, 63⟩ []]]]]]]]]

/-- A class that implements an interface. -/
def implementsCall : Tree :=
  .node .call ⟨17, 58⟩
    [.node (.reference "vineOptions") ⟨17, 28⟩ [],
      .node .object ⟨29, 57⟩
        [.node .property ⟨31, 55⟩
          [.node (.name "f") ⟨31, 32⟩ [],
            .node .classExpression ⟨34, 55⟩
              [.node .heritage ⟨51, 52⟩ [.node (.reference "I") ⟨51, 52⟩ []],
                .node .classBody ⟨53, 55⟩ []]]]]

/-- A pattern of `var` in a block, with a function that declares a name in a default value, and
behind the block a reference to the last name of the pattern. -/
def varPatternCall : Tree :=
  .node .call ⟨17, 87⟩
    [.node (.reference "vineOptions") ⟨17, 28⟩ [],
      .node .object ⟨29, 86⟩
        [.node .property ⟨31, 84⟩
          [.node (.name "f") ⟨31, 32⟩ [],
            .node .arrow ⟨34, 84⟩
              [.node .parameters ⟨34, 36⟩ [],
                .node .functionBody ⟨40, 84⟩
                  [.node .block ⟨42, 80⟩
                    [.node (.variableStatement .var) ⟨44, 78⟩
                      [.node (.declarator .var) ⟨48, 78⟩
                        [.node .objectPattern ⟨48, 74⟩
                          [.node .bindingProperty ⟨50, 69⟩
                            [.node (.name "a") ⟨50, 51⟩ [],
                              .node .defaultPattern ⟨50, 69⟩
                                [.node (.binding "a") ⟨50, 51⟩ [],
                                  .node .arrow ⟨54, 69⟩
                                    [.node .parameters ⟨54, 56⟩ [],
                                      .node .functionBody ⟨60, 69⟩
                                        [.node (.variableStatement .lexical) ⟨62, 67⟩
                                          [.node (.declarator .lexical) ⟨66, 67⟩
                                            [.node (.binding "q") ⟨66, 67⟩ []]]]]]],
                            .node .bindingProperty ⟨71, 72⟩
                              [.node (.name "b") ⟨71, 72⟩ [],
                                .node (.binding "b") ⟨71, 72⟩ []]],
                          .node (.reference "c") ⟨77, 78⟩ []]]],
                    .node .expressionStatement ⟨81, 82⟩
                      [.node (.reference "b") ⟨81, 82⟩ []]]]]]]

/-- Three calls with a reported reference that a module binds or erases. -/
theorem not_reportsUnboundOnly :
    ¬ enumMemberCall.ReportsUnboundOnly ∧ ¬ implementsCall.ReportsUnboundOnly ∧
      ¬ varPatternCall.ReportsUnboundOnly := by
  refine ⟨fun h => ?_, fun h => ?_, fun h => ?_⟩
  · have hMember := h default ⟨.options, none⟩ (by decide) ⟨"A", ⟨62, 63⟩⟩ (by decide)
    exact absurd hMember (by decide)
  · have hInterface := h default ⟨.options, none⟩ (by decide) ⟨"I", ⟨51, 52⟩⟩ (by decide)
    exact absurd hInterface (by decide)
  · have hPattern := h default ⟨.options, none⟩ (by decide) ⟨"b", ⟨81, 82⟩⟩ (by decide)
    exact absurd hPattern (by decide)

end ComponentAnalysis
