import ComponentAnalysis.Proofs.Component.Classification
import ComponentAnalysis.Proofs.Component.Discovery

/-! Which names of a body are listed as constants that may still hold a ref. A name is listed once
for each variable that binds it and may hold one, while its kind is that of its last declaration, so
the list is exact only where the declarations of a name do not mix. -/
namespace ComponentAnalysis

namespace Tree

/-- The variables declared at the top of a function's body, in order. -/
def bodyVariables (f : Tree) : List Tree := f.bodyStatements.flatMap declarators

/-- A variable has a name: its pattern binds it. -/
def Names (d : Tree) (name : String) : Prop :=
  ∃ pattern, d.declaratorPattern? = some pattern ∧ pattern.Binds name

/-- A constant of a plain name whose initializer is a macro call or certainly no ref. -/
def IsPlainConstant (apis : Reactivity) (d : Tree) : Prop :=
  d.isConstDeclarator = true ∧ ∃ name value, d.declaratorName? = some name ∧
    d.declaratorValue? = some value ∧
      (value.unwrap.isMacroCall = true ∨ value.unwrap.isNeverRef apis.reactiveName = true)

/-- A variable is bound as a constant although nothing proves that it holds no ref. -/
structure MayHoldRef (apis : Reactivity) (d : Tree) : Prop where
  notRef : ¬ d.HoldsRef apis
  notReactive : ¬ d.HoldsReactive apis
  notPlain : ¬ d.IsPlainConstant apis

/-- Some variable of a body that has a name may hold a ref. -/
def MayHoldRefIn (apis : Reactivity) (f : Tree) (name : String) : Prop :=
  ∃ d ∈ f.bodyVariables, d.Names name ∧ d.MayHoldRef apis

/-- The names that a variable binds. -/
def variableNames (d : Tree) : List String := d.declaratorPattern?.elim [] patternNames

/-- The names of a variable that are listed. -/
def listedNames (apis : Reactivity) (d : Tree) : List String :=
  (d.bodyDeclaratorBindings apis).filterMap fun b => if b.maybeRef then some b.name else none

section

variable {apis : Reactivity} {d f t : Tree} {name : String}

/-- The names that are read off a variable are those that its pattern binds. -/
theorem mem_variableNames : name ∈ d.variableNames ↔ d.Names name := by
  rw [variableNames, Names]
  cases d.declaratorPattern? with
  | none => simp
  | some pattern => simp [mem_patternNames]

/-- A variable of a pattern holds nothing that an initializer is known to give. -/
theorem mayHoldRef_of_pattern (h : d.declaratorName? = none) : d.MayHoldRef apis where
  notRef := by simp [HoldsRef, h]
  notReactive := by simp [HoldsReactive, h]
  notPlain := by simp [IsPlainConstant, h]

/-- The test that the analysis makes for a plain constant. -/
theorem isPlainConstant_iff (hName : d.declaratorName? = some name) :
    d.IsPlainConstant apis ↔ (d.isConstDeclarator &&
      (d.declaratorValue?.map unwrap).any fun v =>
        v.isMacroCall || v.isNeverRef apis.reactiveName) = true := by
  rw [IsPlainConstant, Bool.and_eq_true, Option.any_eq_true]
  refine and_congr_right fun _ => ?_
  cases hValue : d.declaratorValue? with
  | none => simp
  | some value => simp [hName]

/-- A variable is bound as a constant when it holds neither a ref nor a reactive object. -/
theorem holds_iff_kindInBody :
    (¬ d.HoldsRef apis ∧ ¬ d.HoldsReactive apis) ↔ d.kindInBody apis = .setupConst := by
  rw [← bodyKind_iff]
  constructor
  · rintro ⟨hRef, hReactive⟩
    exact BodyKind.other hRef hReactive
  · intro h
    cases h with
    | other hRef hReactive => exact ⟨hRef, hReactive⟩

/-- Of a variable that may hold a ref all names are listed, and of another one none. -/
theorem listedNames_eq [Decidable (d.MayHoldRef apis)] :
    d.listedNames apis = if d.MayHoldRef apis then d.variableNames else [] := by
  cases hName : d.declaratorName? with
  | none =>
      rw [if_pos (mayHoldRef_of_pattern hName), variableNames]
      simp [listedNames, bodyDeclaratorBindings, hName, List.filterMap_map]
  | some name =>
      have hHolds : d.MayHoldRef apis ↔
          d.kindInBody apis = .setupConst ∧ ¬ d.IsPlainConstant apis := by
        rw [← holds_iff_kindInBody]
        constructor
        · intro h
          exact ⟨⟨h.notRef, h.notReactive⟩, h.notPlain⟩
        · rintro ⟨⟨hRef, hReactive⟩, hPlain⟩
          exact ⟨hRef, hReactive, hPlain⟩
      have hNames : d.variableNames = [name] := patternNames_of_declaratorName? hName
      rw [isPlainConstant_iff hName] at hHolds
      simp only [hHolds, hNames, listedNames, bodyDeclaratorBindings, kindInBody, hName]
      generalize (d.declaratorValue?.map unwrap).elim BindingKind.setupConst _ = kind
      generalize (d.isConstDeclarator && _) = isPlain
      by_cases hKind : kind = .setupConst <;> cases isPlain <;> simp [hKind]

/-- A variable lists its names if it may hold a ref, and none otherwise. -/
theorem mem_listedNames : name ∈ d.listedNames apis ↔ d.Names name ∧ d.MayHoldRef apis := by
  classical
  rw [listedNames_eq, List.mem_ite_nil_right, mem_variableNames, and_comm]

theorem declarators_eq_nil (h : t.exportableForm ≠ .variable) : t.declarators = [] :=
  List.eq_nil_iff_forall_not_mem.mpr fun _ hd => h (exportableForm_of_mem_declarators hd)

/-- The names of a statement's variables are among those that it declares. -/
theorem variableNames_sublist (t : Tree) :
    (t.declarators.flatMap variableNames).Sublist t.declaredNames := by
  by_cases hForm : t.exportableForm = .variable
  · simp only [declaredNames, hForm]
    exact List.Sublist.refl _
  · rw [declarators_eq_nil hForm]
    exact List.nil_sublist _

/-- Only variables are listed. -/
theorem filterMap_bodyBindings (apis : Reactivity) (t : Tree) :
    (t.bodyBindings apis).filterMap (fun b => if b.maybeRef then some b.name else none) =
      t.declarators.flatMap (listedNames apis) := by
  cases hForm : t.exportableForm with
  | «variable» =>
      simp only [bodyBindings, hForm, List.filterMap_flatMap]
      rfl
  | _ => simp [bodyBindings, hForm, declarators_eq_nil]

theorem mem_bodyVariables : d ∈ f.bodyVariables ↔ ∃ t ∈ f.bodyStatements, d ∈ t.declarators :=
  List.mem_flatMap

/-- A variable statement declares names by the patterns of its variables. -/
theorem declares_of_mem_declarators (hd : d ∈ t.declarators) :
    t.Declares name d ↔ d.Names name := by
  have hForm := exportableForm_of_mem_declarators hd
  rw [declares_iff, declarationNodes, namesAt]
  simp only [hForm, ← variableNames.eq_1]
  rw [mem_variableNames, and_iff_right hd]

end

end Tree

section

variable (program : List Tree) (apis : Reactivity) (component : ComponentDeclaration) (f : Tree)
  (propsAlias : Option String)

/-- The list has the names of the variables of the body that may hold refs, in order. -/
theorem maybeRefs_classifyBindings :
    (classifyBindings program apis component f propsAlias).maybeRefs =
      f.bodyVariables.flatMap (Tree.listedNames apis) := by
  have hPositions : ∀ statements : List Tree, ∀ first,
      ((statements.zipIdx first).flatMap fun s =>
        (s.1.bodyBindings apis).map fun d => (d, s.2)).filterMap
          (fun e => if e.1.maybeRef then some e.1.name else none) =
        (statements.flatMap Tree.declarators).flatMap (Tree.listedNames apis) := by
    intro statements
    induction statements with
    | nil => exact fun _ => rfl
    | cons t statements ih =>
        intro first
        rw [List.zipIdx_cons, List.flatMap_cons, List.filterMap_append, ih, List.flatMap_cons,
          List.flatMap_append, ← Tree.filterMap_bodyBindings, List.filterMap_map]
        rfl
  exact hPositions f.bodyStatements 0

variable {program apis component f propsAlias}

/-- A name is listed if any of its variables may hold a ref, the last one or not. -/
theorem mem_maybeRefs {name : String} :
    name ∈ (classifyBindings program apis component f propsAlias).maybeRefs ↔
      f.MayHoldRefIn apis name := by
  simp only [maybeRefs_classifyBindings, List.mem_flatMap, Tree.mem_listedNames,
    Tree.MayHoldRefIn]

/-- A name that a body declares is bound as the body binds it. -/
theorem find?_bindings_of_declared {name : String} {kind : BindingKind}
    (h : ∃ t ∈ f.bodyStatements, ∃ d, t.Declares name d) :
    (classifyBindings program apis component f propsAlias).bindings.find? name = some kind ↔
      BindingScope.body apis f name kind := by
  obtain ⟨t, ht, d, hd⟩ := h
  have hMem : (t, d) ∈ nodesOf Tree.declarationNodes f.bodyStatements :=
    mem_nodesOf.mpr ⟨ht, (Tree.declares_iff.mp hd).1⟩
  obtain ⟨⟨t', d'⟩, hLast⟩ : ∃ e, IsLast (fun e => e.1.Declares name e.2)
      (nodesOf Tree.declarationNodes f.bodyStatements) e :=
    exists_isLast_iff.mpr ⟨(t, d), hMem, hd⟩
  have hBound : BindingScope.body apis f name (d'.kindInBody apis) :=
    ⟨t', d', hLast, d'.bodyKind_kindInBody apis⟩
  rw [BindingScope.find?_bindings_iff, BindingScope.template, BindingScope.within,
    or_iff_left]
  exact fun hOuter => hOuter.1 _ hBound

/-- The last declaration of a name binds it in one way. -/
theorem BindingScope.body_unique {name : String} {kind kind' : BindingKind}
    (h : BindingScope.body apis f name kind) (h' : BindingScope.body apis f name kind') :
    kind = kind' := by
  have hLast := (BindingScope.lists_body apis f name kind).mpr h
  have hLast' := (BindingScope.lists_body apis f name kind').mpr h'
  exact Option.some.inj (hLast.symm.trans hLast')

end

/-- The list of the names that may hold refs is exact: it has no name twice, and each name in it is
a variable of the body and bound as a constant; a variable of the body that is bound as a constant
is missing only if it is a plain constant wherever it is declared. -/
structure ListsMaybeRefs (apis : Reactivity) (f : Tree) (analysis : BindingAnalysis) : Prop where
  nodup : analysis.maybeRefs.Nodup
  listed : ∀ name ∈ analysis.maybeRefs, (∃ d ∈ f.bodyVariables, d.Names name) ∧
    analysis.bindings.find? name = some .setupConst
  missing : ∀ name, (∃ d ∈ f.bodyVariables, d.Names name) →
    analysis.bindings.find? name = some .setupConst → name ∉ analysis.maybeRefs →
      ∀ d ∈ f.bodyVariables, d.Names name → d.IsPlainConstant apis

/-- The declarations of a name at the top of a body do not mix variables that may hold refs with one
another or with others that are last or hold something. -/
structure Unmixed (apis : Reactivity) (f : Tree) : Prop where
  /-- No name is bound twice by variables that may hold refs. -/
  once : (∀ d ∈ f.bodyVariables, d.MayHoldRef apis → d.variableNames.Nodup) ∧
    f.bodyVariables.Pairwise fun d d' => d.MayHoldRef apis → d'.MayHoldRef apis →
      ∀ name, d.Names name → ¬ d'.Names name
  /-- If a variable of a name may hold a ref, the last declaration of the name binds a constant. -/
  last : ∀ name, f.MayHoldRefIn apis name → BindingScope.body apis f name .setupConst
  /-- If a variable holds a ref or a reactive object and the last declaration of its name binds a
  constant, some variable of the name may hold a ref. -/
  kept : ∀ d ∈ f.bodyVariables, ∀ name, d.Names name → d.HoldsRef apis ∨ d.HoldsReactive apis →
    ¬ d.IsPlainConstant apis → BindingScope.body apis f name .setupConst →
      f.MayHoldRefIn apis name

section

variable {apis : Reactivity} {f : Tree}

/-- No name is listed twice if none is bound twice by variables that may hold refs. -/
theorem nodup_listedNames_iff {ds : List Tree} :
    (ds.flatMap (Tree.listedNames apis)).Nodup ↔
      (∀ d ∈ ds, d.MayHoldRef apis → d.variableNames.Nodup) ∧
        ds.Pairwise fun d d' => d.MayHoldRef apis → d'.MayHoldRef apis →
          ∀ name, d.Names name → ¬ d'.Names name := by
  classical
  rw [List.nodup_flatMap]
  refine and_congr (forall₂_congr fun d _ => ?_) (List.Pairwise.iff fun d d' => ?_)
  · rw [Tree.listedNames_eq]
    split <;> simp_all
  · simp only [Function.onFun, List.Disjoint, Tree.mem_listedNames]
    exact ⟨fun h hd hd' name hName hName' => h ⟨hName, hd⟩ ⟨hName', hd'⟩,
      fun h _ hName hName' => h hName.2 hName'.2 _ hName.1 hName'.1⟩

/-- A variable of the body declares each of its names there. -/
theorem declares_of_names {d : Tree} {name : String} (hd : d ∈ f.bodyVariables)
    (hName : d.Names name) : ∃ t ∈ f.bodyStatements, t.Declares name d := by
  obtain ⟨t, ht, hd⟩ := Tree.mem_bodyVariables.mp hd
  exact ⟨t, ht, (Tree.declares_of_mem_declarators hd).mpr hName⟩

section

variable (hDistinct : (f.bodyStatements.flatMap Tree.declaredNames).Nodup)

include hDistinct

/-- A name that is declared once is bound as its declaration says. -/
theorem body_of_nodup {d t : Tree} {name : String} (ht : t ∈ f.bodyStatements)
    (h : t.Declares name d) : BindingScope.body apis f name (d.kindInBody apis) := by
  have hNodes : f.bodyStatements.flatMap Tree.declaredNames =
      (nodesOf Tree.declarationNodes f.bodyStatements).flatMap fun e => e.1.namesAt e.2 := by
    simp only [nodesOf, List.flatMap_assoc, List.flatMap_map]
    exact List.flatMap_congr fun t _ => t.declaredNames_eq_flatMap
  rw [hNodes, List.nodup_flatMap] at hDistinct
  obtain ⟨hNode, hName⟩ := Tree.declares_iff.mp h
  obtain ⟨before, after, hSplit⟩ := List.append_of_mem (mem_nodesOf.mpr ⟨ht, hNode⟩)
  rw [hSplit] at hDistinct
  refine ⟨t, d, ⟨before, after, hSplit, h, ?_⟩, d.bodyKind_kindInBody apis⟩
  intro e he hOther
  exact (List.pairwise_cons.mp (List.pairwise_append.mp hDistinct.2).2.1).1 e he hName
    (Tree.declares_iff.mp hOther).2

/-- Names that differ in all of a body differ in its variables. -/
theorem nodup_bodyVariables : (f.bodyVariables.flatMap Tree.variableNames).Nodup := by
  refine hDistinct.sublist ?_
  rw [Tree.bodyVariables, List.flatMap_assoc]
  induction f.bodyStatements with
  | nil => exact List.Sublist.refl _
  | cons t statements ih => exact t.variableNames_sublist.append ih

/-- Where no name is declared twice, there is nothing to mix. -/
theorem unmixed_of_nodup : Unmixed apis f where
  once := by
    obtain ⟨hEach, hApart⟩ := List.nodup_flatMap.mp (nodup_bodyVariables hDistinct)
    refine ⟨fun d hd _ => hEach d hd, hApart.imp fun hDisjoint _ _ name hName hName' => ?_⟩
    exact hDisjoint (Tree.mem_variableNames.mpr hName) (Tree.mem_variableNames.mpr hName')
  last := by
    rintro name ⟨d, hd, hName, hRef, hReactive, -⟩
    obtain ⟨t, ht, hDeclares⟩ := declares_of_names hd hName
    rw [← Tree.holds_iff_kindInBody.mp ⟨hRef, hReactive⟩]
    exact body_of_nodup hDistinct ht hDeclares
  kept := by
    intro d hd name hName hHolds _ hConst
    obtain ⟨t, ht, hDeclares⟩ := declares_of_names hd hName
    have hBound : BindingScope.body apis f name (d.kindInBody apis) :=
      body_of_nodup hDistinct ht hDeclares
    obtain ⟨hRef, hReactive⟩ :=
      Tree.holds_iff_kindInBody.mpr (BindingScope.body_unique hBound hConst)
    exact absurd hHolds (not_or.mpr ⟨hRef, hReactive⟩)

end

end

/-- The list is exact exactly if declarations of one name are not mixed, as they are not where no
name is declared twice. -/
theorem listsMaybeRefs_iff (program : List Tree) (apis : Reactivity)
    (component : ComponentDeclaration) (f : Tree) (propsAlias : Option String) :
    (ListsMaybeRefs apis f (classifyBindings program apis component f propsAlias) ↔
        Unmixed apis f) ∧
      ((f.bodyStatements.flatMap Tree.declaredNames).Nodup → Unmixed apis f) := by
  have hKind : ∀ {d : Tree} {name : String} {kind : BindingKind}, d ∈ f.bodyVariables →
      d.Names name →
        ((classifyBindings program apis component f propsAlias).bindings.find? name = some kind ↔
          BindingScope.body apis f name kind) := by
    intro d name kind hd hName
    obtain ⟨t, ht, hDeclares⟩ := declares_of_names hd hName
    exact find?_bindings_of_declared ⟨t, ht, d, hDeclares⟩
  refine ⟨⟨fun h => ⟨?_, ?_, ?_⟩, fun h => ⟨?_, ?_, ?_⟩⟩, unmixed_of_nodup⟩
  · have hNodup := h.nodup
    rwa [maybeRefs_classifyBindings, nodup_listedNames_iff] at hNodup
  · intro name hMay
    obtain ⟨d, hd, hName, -⟩ := id hMay
    exact (hKind hd hName).mp (h.listed name (mem_maybeRefs.mpr hMay)).2
  · intro d hd name hName _ hNotPlain hConst
    by_contra hNot
    refine hNotPlain (h.missing name ⟨d, hd, hName⟩ ((hKind hd hName).mpr hConst) ?_ d hd hName)
    rwa [mem_maybeRefs]
  · rw [maybeRefs_classifyBindings, nodup_listedNames_iff]
    exact h.once
  · intro name hMem
    obtain ⟨d, hd, hName, hMay⟩ := mem_maybeRefs.mp hMem
    exact ⟨⟨d, hd, hName⟩, (hKind hd hName).mpr (h.last name ⟨d, hd, hName, hMay⟩)⟩
  · intro name _ hConst hMissing d hd hName
    rw [mem_maybeRefs] at hMissing
    by_contra hNotPlain
    refine hMissing ?_
    by_cases hHolds : d.HoldsRef apis ∨ d.HoldsReactive apis
    · exact h.kept d hd name hName hHolds hNotPlain ((hKind hd hName).mp hConst)
    · obtain ⟨hRef, hReactive⟩ := not_or.mp hHolds
      exact ⟨d, hd, hName, hRef, hReactive, hNotPlain⟩

/-- The tree of a component `A` with the body `var x = f(); var x = ref(0)` and a template. -/
def mixedStatement : Tree :=
  .node (.function .declaration) ⟨0, 64⟩
    [.node (.binding "A") ⟨9, 10⟩ [],
      .node .parameters ⟨10, 12⟩ [],
      .node .functionBody ⟨13, 64⟩
        [.node (.variableStatement .var) ⟨16, 27⟩
            [.node (.declarator .var) ⟨20, 27⟩
              [.node (.binding "x") ⟨20, 21⟩ [],
                .node .call ⟨24, 27⟩ [.node (.reference "f") ⟨24, 25⟩ []]]],
          .node (.variableStatement .var) ⟨29, 43⟩
            [.node (.declarator .var) ⟨33, 43⟩
              [.node (.binding "x") ⟨33, 34⟩ [],
                .node .call ⟨37, 43⟩
                  [.node (.reference "ref") ⟨37, 40⟩ [], .node (.number "0") ⟨41, 42⟩ []]]],
          .node .returnStatement ⟨45, 62⟩
            [.node .taggedTemplate ⟨52, 62⟩
              [.node (.reference "vine") ⟨52, 56⟩ [],
                .node .template ⟨56, 62⟩ [.node (.templateText (some "<a/>")) ⟨57, 61⟩ []]]]]]

/-- A variable that holds a ref is still listed, as it was declared before without one. -/
theorem not_listsMaybeRefs_mixed :
    let component := ComponentDeclaration.ofStatement 0 mixedStatement
    let apis := (Imports.ofProgram [mixedStatement]).reactivity
    let analysis := classifyBindings [mixedStatement] apis component mixedStatement none
    componentsOf [mixedStatement] = [component] ∧ component.function = some mixedStatement ∧
      analysis.maybeRefs = ["x"] ∧ analysis.bindings.find? "x" = some .setupRef ∧
        ¬ ListsMaybeRefs apis mixedStatement analysis := by
  intro component apis analysis
  have hListed : analysis.maybeRefs = ["x"] := by decide +kernel
  have hRef : analysis.bindings.find? "x" = some .setupRef := by decide +kernel
  refine ⟨rfl, rfl, hListed, hRef, fun h => ?_⟩
  have hConst := (h.listed "x" (by rw [hListed]; exact List.mem_singleton_self _)).2
  rw [hRef] at hConst
  cases hConst

end ComponentAnalysis
