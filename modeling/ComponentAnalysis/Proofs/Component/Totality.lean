import ComponentAnalysis.Proofs.Component.Classification
import ComponentAnalysis.Proofs.Component.Completeness
import ComponentAnalysis.Proofs.Validation.Composition

/-! Which of the names that a component sees its bindings leave out. The analysis skips the whole
statement of the component, not only the component, and it reads no namespaces. -/
namespace ComponentAnalysis

variable {Ast : Type}

namespace BindingScope

variable {name : String}

/-- Two scopes bind the names of either. -/
theorem exists_within_iff {inner outer : BindingScope} :
    (∃ kind, inner.within outer name kind) ↔
      (∃ kind, inner name kind) ∨ ∃ kind, outer name kind := by
  constructor
  · rintro ⟨kind, h | ⟨-, h⟩⟩
    · exact Or.inl ⟨kind, h⟩
    · exact Or.inr ⟨kind, h⟩
  · intro h
    by_cases hInner : ∃ kind, inner name kind
    · obtain ⟨kind, hInner⟩ := hInner
      exact ⟨kind, Or.inl hInner⟩
    · obtain ⟨kind, hOuter⟩ := h.resolve_left hInner
      exact ⟨kind, Or.inr ⟨not_exists.mp hInner, hOuter⟩⟩

/-- Statements bind all names that they declare. -/
theorem exists_ofStatements_iff {declares : String → Tree → Tree → Prop} {nodes : Tree → List Tree}
    {kindOf : Tree → BindingKind → Prop} {statements : List Tree}
    (hNodes : ∀ t d, declares name t d → d ∈ nodes t) (hKinds : ∀ d, ∃ kind, kindOf d kind) :
    (∃ kind, ofStatements declares nodes kindOf statements name kind) ↔
      ∃ t ∈ statements, ∃ d, declares name t d := by
  have hLast : (∃ e, IsLast (fun e => declares name e.1 e.2) (nodesOf nodes statements) e) ↔
      ∃ e ∈ nodesOf nodes statements, declares name e.1 e.2 := exists_isLast_iff
  constructor
  · rintro ⟨kind, t, d, h, -⟩
    obtain ⟨e, hMem, hDeclares⟩ := hLast.mp ⟨(t, d), h⟩
    exact ⟨e.1, (mem_nodesOf.mp hMem).1, e.2, hDeclares⟩
  · rintro ⟨t, hMem, d, hDeclares⟩
    obtain ⟨e, h⟩ :=
      hLast.mpr ⟨(t, d), mem_nodesOf.mpr ⟨hMem, hNodes t d hDeclares⟩, hDeclares⟩
    obtain ⟨kind, hKind⟩ := hKinds e.2
    exact ⟨kind, e.1, e.2, h, hKind⟩

end BindingScope

namespace Tree

/-- A statement binds a name to a namespace or, as an import alias, to an item of one. -/
def BindsNamespace (name : String) (t : Tree) : Prop :=
  (t.kind = .namespaceDeclaration ∨ t.kind = .importEquals) ∧ t.declaredName? = some name

/-- A statement exports what binds a name to a namespace. -/
def ExportsNamespace (name : String) (t : Tree) : Prop :=
  ∃ span d rest, t = .node .exportNamed span (d :: rest) ∧ d.BindsNamespace name

/-- A top-level statement declares a name at run time, in any form. -/
inductive DeclaresAtTop (name : String) (t : Tree) : Prop where
  | node (d : Tree) (h : t.ModuleDeclares name d)
  | plain (h : t.BindsNamespace name)
  | exported (h : t.ExportsNamespace name)

/-- An allowed statement binds no namespace itself, though it may export one. -/
theorem not_bindsNamespace_of_isRootStatement {t : Tree} {name : String}
    (h : t.isRootStatement = true) : ¬ t.BindsNamespace name := by
  rintro ⟨hKind | hKind, -⟩ <;> simp [isRootStatement, exportableForm, hKind] at h

end Tree

section

variable (program : List Tree) (declaration : ComponentDeclaration) (f : Tree)
  (component : Component Ast)

/-- The names that a component sees at the top of its body and that have a value at run time. -/
inductive Sees (name : String) : Prop where
  | module {t : Tree} (hMem : t ∈ program) (h : t.DeclaresAtTop name)
  | self (h : component.name = name) (hSome : name ≠ "")
  | props (h : component.propsAlias = name) (hSome : name ≠ "")
  | body {t : Tree} (hMem : t ∈ f.bodyStatements)
      (h : (∃ d, t.Declares name d) ∨ t.BindsNamespace name)

/-- Every name that a component sees has a binding. -/
def BindsAll : Prop :=
  ∀ name, Sees program f component name → ∃ kind, component.bindings.find? name = some kind

/-- The declarations that the analysis of bindings reads. -/
inductive Recorded (name : String) : Prop where
  | module {t d : Tree} (hMem : t ∈ program.eraseIdx declaration.position)
      (h : t.ModuleDeclares name d)
  | self (h : component.name = name) (hSome : name ≠ "")
  | props (h : component.propsAlias = name) (hSome : name ≠ "")
  | body {t d : Tree} (hMem : t ∈ f.bodyStatements) (h : t.Declares name d)

/-- The declarations that it does not read: those in the statement of the component, exported
namespaces, and namespaces in the body. -/
inductive Overlooked (name : String) : Prop where
  | beside {d : Tree} (h : declaration.statement.ModuleDeclares name d)
  | exported {t : Tree} (hMem : t ∈ program) (h : t.ExportsNamespace name)
  | body {t : Tree} (hMem : t ∈ f.bodyStatements) (h : t.BindsNamespace name)

variable {program declaration f component}

/-- A name has a binding exactly if a declaration that the analysis reads has it. -/
theorem exists_binding_iff {apis : Reactivity} {propsAlias : Option String} {name : String}
    (hName : component.name = declaration.name)
    (hProps : propsAlias = some name ↔ component.propsAlias = name ∧ name ≠ "") :
    (∃ kind, (classifyBindings program apis declaration f propsAlias).bindings.find? name =
        some kind) ↔ Recorded program declaration f component name := by
  have hBody : (∃ kind, BindingScope.body apis f name kind) ↔
      ∃ t ∈ f.bodyStatements, ∃ d, t.Declares name d :=
    BindingScope.exists_ofStatements_iff (fun _ _ h => (Tree.declares_iff.mp h).1)
      fun d => ⟨_, d.bodyKind_kindInBody apis⟩
  have hModule : (∃ kind, BindingScope.module program declaration name kind) ↔
      ∃ t ∈ program.eraseIdx declaration.position, ∃ d, t.ModuleDeclares name d :=
    BindingScope.exists_ofStatements_iff (fun _ _ h => (Tree.moduleDeclares_iff.mp h).1)
      fun _ => ⟨_, Tree.moduleKind_iff.mpr rfl⟩
  simp only [BindingScope.find?_bindings_iff, BindingScope.template,
    BindingScope.exists_within_iff, hBody, hModule]
  constructor
  · rintro (⟨t, hMem, d, h⟩ | ⟨kind, hAlias, -⟩ | ⟨kind, hSelf, hSome, -⟩ | ⟨t, hMem, d, h⟩)
    · exact Recorded.body hMem h
    · obtain ⟨h, hSome⟩ := hProps.mp hAlias
      exact Recorded.props h hSome
    · exact Recorded.self (hName.trans hSelf.symm) hSome
    · exact Recorded.module hMem h
  · intro h
    cases h with
    | module hMem h => exact Or.inr (Or.inr (Or.inr ⟨_, hMem, _, h⟩))
    | self h hSome => exact Or.inr (Or.inr (Or.inl ⟨_, h.symm.trans hName, hSome, rfl⟩))
    | props h hSome => exact Or.inr (Or.inl ⟨_, hProps.mpr ⟨h, hSome⟩, rfl⟩)
    | body hMem h => exact Or.inl ⟨_, hMem, _, h⟩

/-- In a file with a sound top level, the bindings leave out exactly the names that only overlooked
declarations have. -/
theorem bindsAll_iff (hRoot : ∀ t ∈ program, t.isRootStatement = true)
    (hAt : program[declaration.position]? = some declaration.statement)
    (hEntry : ∀ name, (∃ kind, component.bindings.find? name = some kind) ↔
      Recorded program declaration f component name) :
    BindsAll program f component ↔ ∀ name, Overlooked program declaration f name →
      Recorded program declaration f component name := by
  constructor
  · intro hAll name hOverlooked
    rw [← hEntry]
    apply hAll
    cases hOverlooked with
    | beside h => exact Sees.module (List.mem_of_getElem? hAt) (Tree.DeclaresAtTop.node _ h)
    | exported hMem h => exact Sees.module hMem (Tree.DeclaresAtTop.exported h)
    | body hMem h => exact Sees.body hMem (Or.inr h)
  · intro hRecorded name hSees
    rw [hEntry]
    cases hSees with
    | self h hSome => exact Recorded.self h hSome
    | props h hSome => exact Recorded.props h hSome
    | body hMem h =>
        rcases h with ⟨d, h⟩ | h
        · exact Recorded.body hMem h
        · exact hRecorded name (Overlooked.body hMem h)
    | @module t hMem h =>
        cases h with
        | plain h => exact absurd h (Tree.not_bindsNamespace_of_isRootStatement (hRoot t hMem))
        | exported h => exact hRecorded name (Overlooked.exported hMem h)
        | node d h =>
            obtain ⟨i, hi⟩ := List.mem_iff_getElem?.mp hMem
            by_cases hOwn : i = declaration.position
            · obtain rfl : t = declaration.statement :=
                Option.some.inj ((hOwn ▸ hi).symm.trans hAt)
              exact hRecorded name (Overlooked.beside h)
            · exact Recorded.module (List.mem_eraseIdx_iff_getElem?.mpr ⟨i, hOwn, hi⟩) h

end

/-- Without faults at its top, a file has allowed statements only. -/
theorem isRootStatement_of_rootFaults_nil {program : List Tree}
    (h : rootFaults program (componentsOf program) = []) :
    ∀ t ∈ program, t.isRootStatement = true := by
  intro t hMem
  rw [rootFaults_eq_flatMap, List.flatMap_eq_nil_iff] at h
  have hNone := h t hMem
  cases hRoot : t.isRootStatement with
  | true => rfl
  | false => simp [Tree.rootFaults, hRoot] at hNone

namespace AnalysisInput

theorem filter_ne_empty_eq_some_iff {text : Option String} {name : String} :
    (text.filter fun t => t ≠ "") = some name ↔ text.getD "" = name ∧ name ≠ "" := by
  cases text with
  | none => simp [eq_comm]
  | some t => simp +contextual [Option.filter_eq_some_iff]

variable (input : AnalysisInput Ast) (file : FileAnalysis Ast)

/-- The bindings of a component leave out exactly the names that only overlooked declarations
have. -/
def BindsRecorded (declaration : ComponentDeclaration) (component : Component Ast) : Prop :=
  ∃ f, declaration.function = some f ∧
    (BindsAll input.program f component ↔ ∀ name, Overlooked input.program declaration f name →
      Recorded input.program declaration f component name)

variable {input} (hRoot : rootFaults input.program (componentsOf input.program) = [])

include hRoot

/-- Each component is added with the bindings that are recorded for it. -/
theorem bindsRecorded_addComponent {declaration : ComponentDeclaration} {f : Tree}
    (hMem : declaration ∈ componentsOf input.program) (hFunction : declaration.function = some f) :
    ∃ component, (input.addComponent file declaration).components = file.components ++ [component] ∧
      input.BindsRecorded declaration component := by
  obtain ⟨⟨_, _, _, _, hComponents⟩, -⟩ :=
    input.addComponent_of_function file declaration hFunction
  refine ⟨_, hComponents, f, hFunction, ?_⟩
  apply bindsAll_iff (isRootStatement_of_rootFaults_nil hRoot) (getElem?_of_mem_componentsOf hMem)
  intro name
  apply exists_binding_iff rfl
  exact filter_ne_empty_eq_some_iff

/-- A run over components adds one for each that has a function, in order. -/
theorem bindsRecorded_foldl (declarations : List ComponentDeclaration)
    (hMem : ∀ declaration ∈ declarations, declaration ∈ componentsOf input.program) :
    ∃ added, (declarations.foldl input.addComponent file).components = file.components ++ added ∧
      List.Forall₂ input.BindsRecorded (declarations.filter fun c => c.function.isSome) added := by
  induction declarations generalizing file with
  | nil => exact ⟨[], (List.append_nil _).symm, List.Forall₂.nil⟩
  | cons declaration declarations ih =>
      obtain ⟨added, hAdded, hAll⟩ := ih (input.addComponent file declaration)
        fun other hOther => hMem other (List.mem_cons_of_mem declaration hOther)
      rw [List.foldl_cons, hAdded]
      cases hFunction : declaration.function with
      | none =>
          rw [List.filter_cons_of_neg (by simp [hFunction])]
          exact ⟨added, by simp [addComponent, hFunction], hAll⟩
      | some f =>
          obtain ⟨component, hComponents, hBinds⟩ :=
            bindsRecorded_addComponent file hRoot (hMem declaration List.mem_cons_self) hFunction
          rw [List.filter_cons_of_pos (by simp [hFunction])]
          refine ⟨component :: added, ?_, List.Forall₂.cons hBinds hAll⟩
          rw [hComponents, List.append_assoc, List.singleton_append]

omit hRoot in
/-- In a structurally valid file the analysis gives one component for each that has a function, and
the bindings of a component leave out exactly the names that only overlooked declarations have. -/
theorem analyze_bindsRecorded (diagnostics : List Diagnostic)
    (hStructural : (validate input.program (componentsOf input.program) input.imports.reactivity
      ⟨file.fileId, input.source, diagnostics⟩).1.structuralOk = true) :
    ∃ added, (input.analyze file (componentsOf input.program)).components =
        file.components ++ added ∧
      List.Forall₂ input.BindsRecorded
        ((componentsOf input.program).filter fun c => c.function.isSome) added :=
  bindsRecorded_foldl { file with imports := input.imports } (structuralOk_iff.mp hStructural) _
    fun _ hMem => hMem

end AnalysisInput

/-- A component alone in its file. -/
theorem analyze_bindsRecorded_card :
    ∃ added, (cardInput.analyze cardFile (componentsOf [cardStatement])).components = added ∧
      List.Forall₂ cardInput.BindsRecorded
        ((componentsOf [cardStatement]).filter fun c => c.function.isSome) added :=
  AnalysisInput.analyze_bindsRecorded cardFile [] (structuralOk_iff.mpr (by decide +kernel))

/-- A component whose statement declares another name behind it. -/
def siblingStatement : Tree :=
  .node (.variableStatement .const) ⟨0, 48⟩
    [.node (.declarator .const) ⟨6, 37⟩
      [.node (.binding "A") ⟨6, 7⟩ [],
        .node .arrow ⟨10, 37⟩
          [.node .parameters ⟨10, 12⟩ [],
            .node .functionBody ⟨16, 37⟩
              [.node .returnStatement ⟨18, 35⟩
                [.node .taggedTemplate ⟨25, 35⟩
                  [.node (.reference "vine") ⟨25, 29⟩ [],
                    .node .template ⟨29, 35⟩ [.node (.templateText (some "<a/>")) ⟨30, 34⟩ []]]]]]],
      .node (.declarator .const) ⟨39, 48⟩
        [.node (.binding "other") ⟨39, 44⟩ [], .node (.number "1") ⟨47, 48⟩ []]]

def siblingInput : AnalysisInput Unit where
  source := "const A = () => \x7b return vine`<a/>` \x7d, other = 1\n"
  program := [siblingStatement]
  imports := {}
  templates := .silent Unit
  options := {}

def siblingFile : FileAnalysis Unit where
  fileId := "sibling"
  source := siblingInput.source

/-- A file passes validation although its component sees a name without a binding. -/
theorem not_bindsAll_sibling :
    (validate [siblingStatement] (componentsOf [siblingStatement]) {}
        ⟨"sibling", siblingInput.source, []⟩).1.passed = true ∧
      ∃ f component,
        (componentsOf [siblingStatement]).map ComponentDeclaration.function = [some f] ∧
        (siblingInput.analyze siblingFile (componentsOf [siblingStatement])).components =
          [component] ∧ ¬ BindsAll [siblingStatement] f component := by
  refine ⟨passed_iff.mpr ⟨by decide, by decide +kernel⟩, _, _, rfl, rfl, ?_⟩
  intro hAll
  have hSees : siblingStatement.ModuleDeclares "other" _ :=
    Tree.ModuleDeclares.declaration (Tree.Declares.declarator .const .const _ _ _ _ _
      (List.mem_cons_of_mem _ List.mem_cons_self) (Tree.Binds.plain _ _))
  obtain ⟨kind, hKind⟩ :=
    hAll "other" (Sees.module List.mem_cons_self (Tree.DeclaresAtTop.node _ hSees))
  exact absurd hKind (by cases kind <;> decide +kernel)

end ComponentAnalysis
