import ComponentAnalysis.Proofs.Component.DeclaredKinds

/-! How a name is bound in a component: by the last declaration of it in the body, else as the
props, else as the component, else by the last declaration of it in the rest of the module. -/
namespace ComponentAnalysis

section

universe u
variable {α : Type u}

/-- An item with a property, behind which no item has it. -/
def IsLast (p : α → Prop) (items : List α) (x : α) : Prop :=
  ∃ before after, items = before ++ x :: after ∧ p x ∧ ∀ y ∈ after, ¬ p y

variable {p : α → Prop} {items : List α}

theorem IsLast.mem {x : α} (h : IsLast p items x) : x ∈ items := by
  obtain ⟨before, after, rfl, -, -⟩ := h
  simp

theorem IsLast.holds {x : α} (h : IsLast p items x) : p x := by
  obtain ⟨before, after, -, hx, -⟩ := h
  exact hx

section

variable {q : α → Bool} (hSame : ∀ x ∈ items, p x ↔ q x = true)

include hSame

/-- The last item with a property is found by a test for it. -/
theorem isLast_iff {x : α} : IsLast p items x ↔ (items.filter q).getLast? = some x := by
  constructor
  · rintro ⟨before, after, rfl, hx, hAfter⟩
    have hNone : after.filter q = [] := by
      rw [List.filter_eq_nil_iff]
      intro y hy hq
      exact hAfter y hy ((hSame y (by simp [hy])).mpr hq)
    rw [List.filter_append, List.filter_cons_of_pos ((hSame x (by simp)).mp hx), hNone]
    exact List.getLast?_concat
  · intro h
    obtain ⟨front, hFront⟩ := List.getLast?_eq_some_iff.mp h
    obtain ⟨before, back, rfl, -, hBack⟩ := List.filter_eq_append_iff.mp hFront
    obtain ⟨skipped, after, rfl, hSkipped, hx, hAfter⟩ := List.filter_eq_cons_iff.mp hBack
    refine ⟨before ++ skipped, after, by rw [List.append_assoc],
      (hSame x (by simp)).mpr hx, ?_⟩
    intro y hy hp
    exact List.filter_eq_nil_iff.mp hAfter y hy ((hSame y (by simp [hy])).mp hp)

end

/-- Some item is the last with a property if any item has it. -/
theorem exists_isLast_iff : (∃ x, IsLast p items x) ↔ ∃ x ∈ items, p x := by
  classical
  constructor
  · rintro ⟨x, before, after, rfl, hx, -⟩
    exact ⟨x, by simp, hx⟩
  · rintro ⟨x, hMem, hx⟩
    cases hLast : (items.filter fun y => p y).getLast? with
    | none =>
        rw [List.getLast?_eq_none_iff, List.filter_eq_nil_iff] at hLast
        exact absurd (decide_eq_true hx) (hLast x hMem)
    | some y => exact ⟨y, (isLast_iff fun y _ => decide_eq_true_iff.symm).mpr hLast⟩

end

/-- Statements with the nodes by which they may declare names, in order. -/
def nodesOf (nodes : Tree → List Tree) (statements : List Tree) : List (Tree × Tree) :=
  statements.flatMap fun t => (nodes t).map fun d => (t, d)

theorem mem_nodesOf {nodes : Tree → List Tree} {statements : List Tree} {t d : Tree} :
    (t, d) ∈ nodesOf nodes statements ↔ t ∈ statements ∧ d ∈ nodes t := by
  simp [nodesOf]

/-- Leaving a position out of a numbered list leaves its item out. -/
theorem flatMap_zipIdx_eraseIdx {α β : Type} (f : α → List β) (items : List α) (i k : Nat) :
    ((items.zipIdx k).flatMap fun e => if e.2 = i + k then [] else f e.1) =
      (items.eraseIdx i).flatMap f := by
  induction items generalizing i k with
  | nil => rfl
  | cons x items ih =>
      rw [List.zipIdx_cons, List.flatMap_cons]
      cases i with
      | zero =>
          -- All positions behind the first item differ from its own.
          have hRest : ((items.zipIdx (k + 1)).flatMap fun e =>
              if e.2 = 0 + k then [] else f e.1) =
                ((items.zipIdx (k + 1)).map Prod.fst).flatMap f := by
            rw [List.flatMap_map]
            apply List.flatMap_congr
            intro e hMem
            have hLe := (List.mem_zipIdx hMem).1
            exact if_neg (by omega)
          rw [hRest, List.zipIdx_map_fst, List.eraseIdx_cons_zero, if_pos (Nat.zero_add k).symm,
            List.nil_append]
      | succ i =>
          have hShift : i + 1 + k = i + (k + 1) := by omega
          rw [List.eraseIdx_cons_succ, List.flatMap_cons, if_neg (by omega), hShift, ih]

/-- How the names of a scope are bound. -/
abbrev BindingScope := String → BindingKind → Prop

namespace BindingScope

/-- A scope inside another one: its names hide those of the outer scope. -/
def within (inner outer : BindingScope) : BindingScope := fun name kind =>
  inner name kind ∨ (∀ kind', ¬ inner name kind') ∧ outer name kind

/-- The names that statements declare by their nodes; the last declaration of a name counts. -/
def ofStatements (declares : String → Tree → Tree → Prop) (nodes : Tree → List Tree)
    (kindOf : Tree → BindingKind → Prop) (statements : List Tree) : BindingScope :=
  fun name kind => ∃ t d,
    IsLast (fun e => declares name e.1 e.2) (nodesOf nodes statements) (t, d) ∧ kindOf d kind

/-- Entries in order bind names as a scope does. -/
def Lists (entries : List (String × BindingKind)) (scope : BindingScope) : Prop :=
  ∀ name kind, lastOf? entries name = some kind ↔ scope name kind

/-- Later entries hide earlier ones, so they are the inner scope. -/
theorem Lists.append {first second : List (String × BindingKind)} {outer inner : BindingScope}
    (hFirst : Lists first outer) (hSecond : Lists second inner) :
    Lists (first ++ second) (inner.within outer) := by
  intro name kind
  rw [lastOf?_append, within, ← hSecond, ← hFirst]
  cases hLast : lastOf? second name with
  | none =>
      have hNone : ∀ kind', ¬ inner name kind' := by
        intro kind' h
        rw [(hSecond name kind').mpr h] at hLast
        cases hLast
      simp [hNone]
  | some kind' =>
      have hSome : ¬ ∀ kind, ¬ inner name kind :=
        fun hNone => hNone kind' ((hSecond name kind').mp hLast)
      simp [hSome]

section

variable {declares : String → Tree → Tree → Prop} {nodes : Tree → List Tree}
  {kindOf : Tree → BindingKind → Prop} {names : Tree → Tree → List String}
  {kind : Tree → BindingKind}
  (hNames : ∀ name t d, declares name t d ↔ d ∈ nodes t ∧ name ∈ names t d)
  (hKinds : ∀ d k, kindOf d k ↔ kind d = k) (statements : List Tree)

include hNames hKinds

/-- Entering the names of each node with its kind lists the scope of the statements. -/
theorem lists_ofStatements :
    Lists (statements.flatMap fun t => (nodes t).flatMap fun d => (names t d).map fun n =>
      (n, kind d)) (ofStatements declares nodes kindOf statements) := by
  intro name k
  -- Paired with their statements the nodes form one list, in which the last declaration counts.
  have hPairs : (statements.flatMap fun t => (nodes t).flatMap fun d => (names t d).map fun n =>
      (n, kind d)) = (nodesOf nodes statements).flatMap fun e => (names e.1 e.2).map fun n =>
        (n, kind e.2) := by
    simp only [nodesOf, List.flatMap_assoc, List.flatMap_map]
  have hSame : ∀ e ∈ nodesOf nodes statements,
      declares name e.1 e.2 ↔ decide (name ∈ names e.1 e.2) = true := by
    rintro ⟨t, d⟩ hMem
    rw [hNames, decide_eq_true_iff, and_iff_right (mem_nodesOf.mp hMem).2]
  rw [hPairs, lastOf?_flatMap (fun e : Tree × Tree => names e.1 e.2) (fun e => kind e.2),
    Option.map_eq_some_iff, Prod.exists]
  exact exists₂_congr fun t d => and_congr (isLast_iff hSame).symm (hKinds d k).symm

end

variable (program : List Tree) (apis : Reactivity) (component : ComponentDeclaration) (f : Tree)
  (propsAlias : Option String)

/-- The names declared at the top of a component's body. -/
def body : BindingScope :=
  ofStatements Tree.Declares Tree.declarationNodes (Tree.BodyKind apis) f.bodyStatements

/-- The name of the props. -/
def props : BindingScope := fun name kind => propsAlias = some name ∧ kind = .setupReactiveConst

/-- The name of a component itself. -/
def self : BindingScope := fun name kind =>
  name = component.name ∧ name ≠ "" ∧ kind = .setupConst

/-- The names that the statements of a module other than the component's declare. -/
def module : BindingScope :=
  ofStatements Tree.ModuleDeclares Tree.moduleNodes Tree.ModuleKind
    (program.eraseIdx component.position)

/-- All names that the template of a component sees. -/
def template : BindingScope :=
  (body apis f).within ((props propsAlias).within ((self component).within
    (module program component)))

/-- The declarations of a body, in order, bind names as the body does. -/
theorem lists_body :
    Lists ((bodyDeclarations apis f).map fun (b, _) => (b.name, b.kind)) (body apis f) := by
  have hEntries : (bodyDeclarations apis f).map (fun (b, _) => (b.name, b.kind)) =
      f.bodyStatements.flatMap fun t => t.declarationNodes.flatMap fun d =>
        (t.namesAt d).map fun n => (n, d.kindInBody apis) := by
    conv_rhs => rw [← List.zipIdx_map_fst 0 f.bodyStatements, List.flatMap_map]
    rw [bodyDeclarations, List.map_flatMap]
    apply List.flatMap_congr
    rintro ⟨t, number⟩ -
    rw [← t.entries_bodyBindings apis, List.map_map]
    rfl
  rw [hEntries]
  apply lists_ofStatements
  · exact fun name t d => Tree.declares_iff
  · exact fun d kind => Tree.bodyKind_iff

theorem lastOf?_const_eq_some_iff {names : List String} {k kind : BindingKind} {name : String} :
    lastOf? (names.map fun n => (n, k)) name = some kind ↔ name ∈ names ∧ kind = k := by
  rw [lastOf?_const]
  by_cases hMem : name ∈ names
  · simp [hMem, eq_comm]
  · simp [hMem]

/-- The name of the props is one entry, or none. -/
theorem lists_props :
    Lists (propsAlias.toList.map fun name => (name, .setupReactiveConst)) (props propsAlias) := by
  intro name kind
  rw [lastOf?_const_eq_some_iff, Option.mem_toList]
  rfl

/-- So is the name of a component, unless it is empty. -/
theorem lists_self :
    Lists (if component.name = "" then [] else [(component.name, .setupConst)])
      (self component) := by
  intro name kind
  by_cases hEmpty : component.name = ""
  · rw [if_pos hEmpty]
    have hNone : ¬ self component name kind := by
      rintro ⟨hName, hSome, -⟩
      exact hSome (hName.trans hEmpty)
    exact iff_of_false (by simp [lastOf?]) hNone
  · rw [if_neg hEmpty, ← List.map_singleton (f := fun n => (n, BindingKind.setupConst)),
      lastOf?_const_eq_some_iff, List.mem_singleton]
    exact and_congr_right fun hName => (and_iff_right (hName ▸ hEmpty)).symm

/-- The statements of the module but for that of the component bind names as the module does. -/
theorem lists_module :
    Lists (program.zipIdx.flatMap fun (statement, position) =>
      if position = component.position then [] else statement.moduleBindings)
        (module program component) := by
  have hEntries : (program.zipIdx.flatMap fun (statement, position) =>
      if position = component.position then [] else statement.moduleBindings) =
        (program.eraseIdx component.position).flatMap fun t => t.moduleNodes.flatMap fun d =>
          (t.moduleNamesAt d).map fun n => (n, d.kindInModule) := by
    simp only [← Tree.entries_moduleBindings]
    exact flatMap_zipIdx_eraseIdx Tree.moduleBindings program component.position 0
  rw [hEntries]
  apply lists_ofStatements
  · exact fun name t d => Tree.moduleDeclares_iff
  · exact fun d kind => Tree.moduleKind_iff

/-- The table of bindings is the template scope: what it gives for a name is the kind that the
innermost declaration has. -/
theorem find?_bindings_iff (name : String) (kind : BindingKind) :
    (classifyBindings program apis component f propsAlias).bindings.find? name = some kind ↔
      template program apis component f propsAlias name kind := by
  have hLists := (((lists_module program component).append (lists_self component)).append
    (lists_props propsAlias)).append (lists_body apis f)
  rw [classifyBindings, Table.find?_ofList]
  exact hLists name kind

end BindingScope

/-- The number found for a name is that of the last statement of the body that declares it. -/
theorem lastDeclaring?_eq_some_iff {body : List Tree} {name : String} {s : Nat} :
    lastDeclaring? body name = some s ↔
      ∃ t, IsLast (fun e => ∃ d, e.1.Declares name d) body.zipIdx (t, s) := by
  have hSame : ∀ e ∈ body.zipIdx, (∃ d, e.1.Declares name d) ↔
      (fun (e : Tree × Nat) => decide (name ∈ e.1.declaredNames)) e = true := by
    intro e _
    rw [decide_eq_true_iff, Tree.mem_declaredNames]
  rw [lastDeclaring?, Option.map_eq_some_iff]
  constructor
  · rintro ⟨⟨t, number⟩, hLast, rfl⟩
    exact ⟨t, (isLast_iff hSame).mpr hLast⟩
  · rintro ⟨t, hLast⟩
    exact ⟨(t, s), (isLast_iff hSame).mp hLast, rfl⟩

/-- A last declaring statement is found for each name that is declared at all. -/
theorem exists_lastDeclaring?_eq_some_iff {body : List Tree} {name : String} :
    (∃ s, lastDeclaring? body name = some s) ↔ ∃ t ∈ body, ∃ d, t.Declares name d := by
  have hLast : (∃ e, IsLast (fun e => ∃ d, e.1.Declares name d) body.zipIdx e) ↔
      ∃ e ∈ body.zipIdx, ∃ d, e.1.Declares name d := exists_isLast_iff
  constructor
  · rintro ⟨s, hs⟩
    obtain ⟨t, h⟩ := lastDeclaring?_eq_some_iff.mp hs
    obtain ⟨⟨u, number⟩, hMem, hDeclares⟩ := hLast.mp ⟨(t, s), h⟩
    exact ⟨u, List.mem_of_getElem? (List.mem_zipIdx_iff_getElem?.mp hMem), hDeclares⟩
  · rintro ⟨t, hMem, hDeclares⟩
    obtain ⟨number, hAt⟩ := List.mem_iff_getElem?.mp hMem
    obtain ⟨⟨u, s⟩, h⟩ :=
      hLast.mpr ⟨(t, number), List.mem_zipIdx_iff_getElem?.mpr hAt, hDeclares⟩
    exact ⟨s, lastDeclaring?_eq_some_iff.mpr ⟨u, h⟩⟩

/-- The analysis binds a name as the innermost scope does that has it, and no other names; it
numbers exactly the names that the body declares, each by the last statement that does. -/
theorem classifyBindings_iff (program : List Tree) (apis : Reactivity)
    (component : ComponentDeclaration) (f : Tree) (propsAlias : Option String) (name : String) :
    let analysis := classifyBindings program apis component f propsAlias
    (∀ kind, analysis.bindings.find? name = some kind ↔
        BindingScope.template program apis component f propsAlias name kind) ∧
      (∀ s, analysis.declarations.find? name = some s ↔
        ∃ t, IsLast (fun e => ∃ d, e.1.Declares name d) f.bodyStatements.zipIdx (t, s)) ∧
      ((∃ s, analysis.declarations.find? name = some s) ↔
        ∃ t ∈ f.bodyStatements, ∃ d, t.Declares name d) := by
  simp only [find?_declarations]
  exact ⟨BindingScope.find?_bindings_iff program apis component f propsAlias name,
    fun s => lastDeclaring?_eq_some_iff, exists_lastDeclaring?_eq_some_iff⟩

end ComponentAnalysis
