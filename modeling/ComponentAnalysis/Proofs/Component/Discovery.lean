import ComponentAnalysis.Proofs.Component.Registration
import ComponentAnalysis.Proofs.Tree.Returned

/-! Which functions of a file become components. A statement may declare several functions that
return a template, one in each of its variables. Of a file that passes validation, exactly those
become components that are the function of the first variable. -/
namespace ComponentAnalysis

variable {Ast : Type}

namespace Tree

/-- A statement declares a function under a name: itself, or as the value of a variable. -/
inductive DeclaresFunction (t : Tree) : String → Tree → Prop where
  | declaration (hForm : t.declared.exportableForm = .function) :
      DeclaresFunction t (t.declared.declaredName?.getD "") t.declared
  | value {d v : Tree} (hDeclarator : d ∈ t.declared.declarators)
      (hValue : d.declaratorValue? = some v) (hFunction : v.unwrap.isFunction = true) :
      DeclaresFunction t (d.declaratorName?.getD "") v.unwrap

/-- Only variable statements have variables. -/
theorem exportableForm_of_mem_declarators {d t : Tree} (h : d ∈ t.declarators) :
    t.exportableForm = .variable := by
  fun_cases declarators t with
  | case1 kind span children => rfl
  | case2 => simp_all [declarators]

theorem notMem_declarators_of_function {d t : Tree} (h : t.exportableForm = .function) :
    d ∉ t.declarators := by
  intro hDeclarator
  rw [exportableForm_of_mem_declarators hDeclarator] at h
  cases h

/-- The variables of a statement stand one behind the other. -/
theorem WellPlaced.declarators_apart {t : Tree} (h : t.WellPlaced) :
    t.declarators.Pairwise Before := by
  fun_cases declarators t with
  | case1 kind span children => exact h.placed.apart rfl
  | case2 => exact List.Pairwise.nil

section

variable {t f f' : Tree} {name name' : String}

/-- A statement holds the functions that it declares. -/
theorem DeclaresFunction.mem_preorder (h : t.DeclaresFunction name f) : f ∈ t.preorder := by
  refine mem_preorder_trans ?_ t.declared_mem_preorder
  cases h with
  | declaration _ => exact mem_preorder_self _
  | value hDeclarator hValue _ =>
      exact mem_preorder_of_child (mem_children_of_mem_declarators hDeclarator)
        (unwrap_mem_preorder_of_declaratorValue? hValue)

/-- The function that is taken for the component of a statement is one that it declares. -/
theorem declaresFunction_functionInfo (h : t.functionInfo.1 = some f) :
    t.DeclaresFunction t.functionInfo.2 f := by
  rcases functionInfo_cases h with ⟨hForm, rfl⟩ | ⟨d, v, hFirst, hValue, rfl, hFunction⟩
  · have hName : t.functionInfo.2 = t.declared.declaredName?.getD "" := by
      simp only [functionInfo, hForm]
    rw [hName]
    exact DeclaresFunction.declaration hForm
  · have hDeclarator := List.mem_of_head? hFirst
    have hName : t.functionInfo.2 = d.declaratorName?.getD "" := by
      simp only [functionInfo, exportableForm_of_mem_declarators hDeclarator, hFirst]
      cases d.declaratorName? <;> rfl
    rw [hName]
    exact DeclaresFunction.value hDeclarator hValue hFunction

/-- A place in two functions that a statement declares is a place in one function. -/
theorem DeclaresFunction.eq_of_within (hPlaced : t.WellPlaced) (h : t.DeclaresFunction name f)
    (h' : t.DeclaresFunction name' f') {span : Span} (hSpan : span.start < span.stop)
    (hWithin : span.Within f.span) (hWithin' : span.Within f'.span) : name = name' ∧ f = f' := by
  cases h with
  | declaration hForm =>
      cases h' with
      | declaration _ => exact ⟨rfl, rfl⟩
      | value hDeclarator _ _ => exact absurd hDeclarator (notMem_declarators_of_function hForm)
  | @value d v hDeclarator hValue _ =>
      cases h' with
      | declaration hForm => exact absurd hDeclarator (notMem_declarators_of_function hForm)
      | @value d' v' hDeclarator' hValue' _ =>
          have hDeclared := hPlaced.of_mem t.declared_mem_preorder
          have hInside : ∀ {d v : Tree}, d ∈ t.declared.declarators →
              d.declaratorValue? = some v → v.unwrap.span.Within d.span := fun hd hv =>
            (hDeclared.of_child (mem_children_of_mem_declarators hd)).within
              (unwrap_mem_preorder_of_declaratorValue? hv)
          obtain rfl : d = d' := Tree.eq_of_within hDeclared.declarators_apart hDeclarator
            hDeclarator' hSpan (hWithin.trans (hInside hDeclarator hValue))
            (hWithin'.trans (hInside hDeclarator' hValue'))
          rw [hValue, Option.some.injEq] at hValue'
          exact ⟨rfl, by rw [hValue']⟩

end

/-- A function is the one that a statement is, or the value of its first variable. -/
def FirstDeclares (t f : Tree) : Prop :=
  (t.declared.exportableForm = .function ∧ f = t.declared) ∨
    ∃ d v, t.declared.declarators.head? = some d ∧ d.declaratorValue? = some v ∧ f = v.unwrap

/-- The function that a statement gives is its own or that of its first variable. -/
theorem firstDeclares_of_functionInfo {t f : Tree} (h : t.functionInfo.1 = some f) :
    t.FirstDeclares f :=
  (functionInfo_cases h).imp id fun ⟨d, v, hFirst, hValue, hUnwrap, _⟩ =>
    ⟨d, v, hFirst, hValue, hUnwrap⟩

/-- There is one such function at most. -/
theorem FirstDeclares.unique {t f f' : Tree} (h : t.FirstDeclares f) (h' : t.FirstDeclares f') :
    f = f' := by
  rcases h with ⟨hForm, rfl⟩ | ⟨d, v, hFirst, hValue, rfl⟩
  · rcases h' with ⟨-, rfl⟩ | ⟨d', v', hFirst', -, -⟩
    · rfl
    · exact absurd (List.mem_of_head? hFirst') (notMem_declarators_of_function hForm)
  · rcases h' with ⟨hForm, -⟩ | ⟨d', v', hFirst', hValue', rfl⟩
    · exact absurd (List.mem_of_head? hFirst) (notMem_declarators_of_function hForm)
    · rw [hFirst, Option.some.injEq] at hFirst'
      rw [hFirst', hValue', Option.some.injEq] at hValue
      rw [hValue]

/-- A statement declares a component if its first function returns a template with nothing around
it. -/
theorem FirstDeclares.isComponent {t f : Tree} (h : t.FirstDeclares f)
    (hReturned : f.returnedMarkups ≠ []) : t.isComponent = true := by
  have hPlace : (t.declared.exportableForm = .function ∨ t.declared.exportableForm = .variable) ∧
      f ∈ t.declared.preorder := by
    rcases h with ⟨hForm, rfl⟩ | ⟨d, v, hFirst, hValue, rfl⟩
    · exact ⟨Or.inl hForm, mem_preorder_self _⟩
    · have hDeclarator := List.mem_of_head? hFirst
      exact ⟨Or.inr (exportableForm_of_mem_declarators hDeclarator),
        mem_preorder_of_child (mem_children_of_mem_declarators hDeclarator)
          (unwrap_mem_preorder_of_declaratorValue? hValue)⟩
  obtain ⟨markup, hMarkup⟩ := List.exists_mem_of_ne_nil _ hReturned
  have hDeclared := mem_returnedMarkups_of_mem_preorder hMarkup hPlace.2
  have hSome : t.declared.returnedMarkups ≠ [] := List.ne_nil_of_mem hDeclared
  simp [Tree.isComponent, hPlace.1, hSome]

end Tree

/-- No component of a file is found twice. -/
theorem nodup_componentsOf (program : List Tree) : (componentsOf program).Nodup := by
  have hPositions : program.zipIdx.Pairwise fun a b => a.2 ≠ b.2 := by
    rw [← List.pairwise_map, List.zipIdx_map_snd]
    exact List.nodup_range'
  refine hPositions.filterMap _ ?_
  intro a b hDifferent c hc c' hc' hSame
  obtain ⟨-, hc⟩ := Option.ite_none_right_eq_some.mp hc
  obtain ⟨-, hc'⟩ := Option.ite_none_right_eq_some.mp hc'
  apply hDifferent
  calc a.2 = c.position := by rw [← Option.some.inj hc]; rfl
    _ = c'.position := by rw [hSame]
    _ = b.2 := by rw [← Option.some.inj hc']; rfl

/-- A component is named by its statement. -/
theorem name_eq_of_mem_componentsOf {program : List Tree} {d : ComponentDeclaration}
    (hd : d ∈ componentsOf program) : d.name = d.statement.functionInfo.2 := by
  obtain ⟨i, t, -, -, rfl⟩ := mem_componentsOf.mp hd
  rfl

/-- A component stands for a function: it has its name and a template that it returns. -/
structure Represents (source name : String) (f : Tree) (component : Component Ast) : Prop where
  name : component.name = name
  template : ∃ content, f.Returns content ∧ component.template = some (content.text source) ∧
    component.templateRange = some content

namespace AnalysisInput

variable (input : AnalysisInput Ast) (file : FileAnalysis Ast)

variable {input file} in
/-- The component of a statement stands for a function that is declared in the file exactly if the
function is taken for it and returns a template with nothing around it. -/
theorem represents_iff (hPlaced : ScriptPlaced input.program) {fileId : String}
    {d : ComponentDeclaration} {c : Component Ast} (hd : d ∈ componentsOf input.program)
    (hFrom : input.ComesFrom fileId d c) {t f : Tree} {name : String} (ht : t ∈ input.program)
    (hDeclares : t.DeclaresFunction name f) {content : Span} (hReturns : f.Returns content) :
    Represents input.source name f c ↔
      d.statement = t ∧ t.functionInfo.1 = some f ∧ f.returnedMarkups ≠ [] := by
  have hStatement := hPlaced.each t ht
  have hFunctionPlaced := hStatement.of_mem hDeclares.mem_preorder
  constructor
  · rintro ⟨-, content, hContent, -, hRange⟩
    rw [hFrom.templateRange] at hRange
    obtain ⟨markup, hMarkup, rfl⟩ := Option.map_eq_some_iff.mp hRange
    obtain ⟨g, hFunction⟩ := Option.isSome_iff_exists.mp hFrom.function
    rw [markup_of_mem_componentsOf hd hFunction] at hMarkup
    have hReturned := List.mem_of_getLast? hMarkup
    have hInfo := (function_eq_of_mem_componentsOf hd).symm.trans hFunction
    -- The template stands in both functions, so they are one.
    obtain ⟨hSpan, hInside⟩ := hContent.within hFunctionPlaced
    obtain ⟨-, hInside'⟩ := (Tree.returns_of_mem_returnedMarkups hReturned).within
      (wellPlaced_function hPlaced hd hFunction)
    obtain rfl : d.statement = t := Tree.eq_of_within hPlaced.apart
      (List.mem_of_getElem? (getElem?_of_mem_componentsOf hd)) ht hSpan
      (hInside'.trans (function_within hPlaced hd hFunction))
      (hInside.trans (hStatement.within hDeclares.mem_preorder))
    obtain ⟨-, rfl⟩ := hDeclares.eq_of_within hStatement
      (Tree.declaresFunction_functionInfo hInfo) hSpan hInside hInside'
    exact ⟨rfl, hInfo, List.ne_nil_of_mem hReturned⟩
  · rintro ⟨rfl, hInfo, hReturned⟩
    have hFunction := (function_eq_of_mem_componentsOf hd).trans hInfo
    obtain ⟨hSpan, hInside⟩ := hReturns.within hFunctionPlaced
    obtain ⟨hName, -⟩ := hDeclares.eq_of_within hStatement
      (Tree.declaresFunction_functionInfo hInfo) hSpan hInside hInside
    have hMarkup := markup_of_mem_componentsOf hd hFunction
    rw [Tree.markup?, List.getLast?_eq_some_getLast hReturned] at hMarkup
    refine ⟨?_, _, Tree.returns_of_mem_returnedMarkups (List.getLast_mem hReturned), ?_, ?_⟩
    · rw [hFrom.name, name_eq_of_mem_componentsOf hd, hName]
    · rw [hFrom.template, hMarkup, Option.map_some]
    · rw [hFrom.templateRange, hMarkup, Option.map_some]

variable {input} in
/-- When all components of a file are kept, exactly one stands for a function that returns a
template, exactly if it is the first of its statement and returns one with nothing around it. -/
theorem existsUnique_represents_iff (hPlaced : ScriptPlaced input.program) {fileId : String}
    {added : List (Component Ast)}
    (hAll : List.Forall₂ (input.ComesFrom fileId) (componentsOf input.program) added)
    {t f : Tree} {name : String} (ht : t ∈ input.program) (hDeclares : t.DeclaresFunction name f)
    {content : Span} (hReturns : f.Returns content) :
    (∃! i : Nat, ∃ c, added[i]? = some c ∧ Represents input.source name f c) ↔
      t.FirstDeclares f ∧ f.returnedMarkups ≠ [] := by
  constructor
  · rintro ⟨i, ⟨c, hc, hRepresents⟩, -⟩
    obtain ⟨d, hd, hFrom⟩ := exists_getElem?_of_forall₂ hAll.flip hc
    obtain ⟨-, hInfo, hReturned⟩ := (represents_iff hPlaced (List.mem_of_getElem? hd) hFrom ht
      hDeclares hReturns).mp hRepresents
    exact ⟨Tree.firstDeclares_of_functionInfo hInfo, hReturned⟩
  · rintro ⟨hFirst, hReturned⟩
    obtain ⟨position, hPosition⟩ := List.mem_iff_getElem?.mp ht
    have hd : ComponentDeclaration.ofStatement position t ∈ componentsOf input.program :=
      mem_componentsOf.mpr ⟨position, t, hPosition, hFirst.isComponent hReturned, rfl⟩
    obtain ⟨i, hi⟩ := List.mem_iff_getElem?.mp hd
    obtain ⟨c, hc, hFrom⟩ := exists_getElem?_of_forall₂ hAll hi
    obtain ⟨g, hFunction⟩ := Option.isSome_iff_exists.mp hFrom.function
    obtain rfl : f = g := hFirst.unique (Tree.firstDeclares_of_functionInfo hFunction)
    refine ⟨i, ⟨c, hc, (represents_iff hPlaced hd hFrom ht hDeclares hReturns).mpr
      ⟨rfl, hFunction, hReturned⟩⟩, ?_⟩
    -- Another component for the function would come from the same statement.
    rintro j ⟨c', hc', hRepresents⟩
    obtain ⟨d', hj, hFrom'⟩ := exists_getElem?_of_forall₂ hAll.flip hc'
    have hd' := List.mem_of_getElem? hj
    obtain ⟨hStatement, -⟩ :=
      (represents_iff hPlaced hd' hFrom' ht hDeclares hReturns).mp hRepresents
    have hSame : d' = .ofStatement position t := by
      have hPlacedAt := hPlaced.each t ht
      obtain ⟨hSpan, hInside⟩ := hReturns.within (hPlacedAt.of_mem hDeclares.mem_preorder)
      have hWithin := hInside.trans (hPlacedAt.within hDeclares.mem_preorder)
      exact eq_of_within_statements hPlaced hd' hd hSpan (hStatement ▸ hWithin) hWithin
    have hBound := (List.getElem?_eq_some_iff.mp hj).1
    exact (List.getElem?_inj hBound (nodup_componentsOf _)).mp (by rw [hj, hi, hSame])

/-- In a file that passes validation, a function that returns a template becomes exactly one
component, under its name and with a template of its own, exactly if it is the first of its
statement and returns a template with nothing around it. Any other gets lost. -/
theorem analyze_represents_iff (diagnostics : List Diagnostic)
    (hPlaced : ScriptPlaced input.program)
    (hPassed : (validate input.program (componentsOf input.program) input.imports.reactivity
      ⟨file.fileId, input.source, diagnostics⟩).1.passed = true) :
    ∃ added, (input.analyze file (componentsOf input.program)).components =
        file.components ++ added ∧
      ∀ t ∈ input.program, ∀ name f, t.DeclaresFunction name f → (∃ content, f.Returns content) →
        ((∃! i : Nat, ∃ c, added[i]? = some c ∧ Represents input.source name f c) ↔
          t.FirstDeclares f ∧ f.returnedMarkups ≠ []) := by
  obtain ⟨-, hNoError⟩ := passed_iff.mp hPassed
  have hAll := input.forall₂_comesFrom_of_no_error file.fileId hNoError
  refine ⟨_, input.components_foldl { file with imports := input.imports } _, ?_⟩
  intro t ht name f hDeclares ⟨content, hReturns⟩
  exact existsUnique_represents_iff hPlaced hAll ht hDeclares hReturns

end AnalysisInput

/-- An arrow function that returns a template of four characters. -/
def markupArrow (start : Nat) (text : String) : Tree :=
  .node .arrow ⟨start, start + 27⟩
    [.node .parameters ⟨start, start + 2⟩ [],
      .node .functionBody ⟨start + 6, start + 27⟩
        [.node .returnStatement ⟨start + 8, start + 25⟩
          [.node .taggedTemplate ⟨start + 15, start + 25⟩
            [.node (.reference "vine") ⟨start + 15, start + 19⟩ [],
              .node .template ⟨start + 19, start + 25⟩
                [.node (.templateText (some text)) ⟨start + 20, start + 24⟩ []]]]]]

/-- A variable with a name of one letter that holds such a function. -/
def markupVariable (start : Nat) (name text : String) : Tree :=
  .node (.declarator .const) ⟨start, start + 31⟩
    [.node (.binding name) ⟨start, start + 1⟩ [], markupArrow (start + 4) text]

/-- A statement with such a variable declares the function in it. -/
theorem declaresFunction_markupVariable {t : Tree} {start : Nat} {name text : String}
    (h : markupVariable start name text ∈ t.declared.declarators) :
    t.DeclaresFunction name (markupArrow (start + 4) text) :=
  @Tree.DeclaresFunction.value t (markupVariable start name text) (markupArrow (start + 4) text) h
    rfl rfl

def pairStatement : Tree :=
  .node (.variableStatement .const) ⟨0, 70⟩
    [markupVariable 6 "A" "<a/>", markupVariable 39 "B" "<b/>"]

def pairInput : AnalysisInput Unit where
  source := "const A = () => \x7b return vine`<a/>` \x7d, B = () => \x7b return vine`<b/>` \x7d\n"
  program := [pairStatement]
  imports := {}
  templates := .silent Unit
  options := {}

def pairFile : FileAnalysis Unit where
  fileId := "pair"
  source := pairInput.source

/-- The first function of the statement becomes a component. -/
theorem AnalysisInput.analyze_represents_first :
    ScriptPlaced [pairStatement] ∧
      (validate [pairStatement] (componentsOf [pairStatement]) {}
        ⟨"pair", pairInput.source, []⟩).1.passed = true ∧
      ∃ added, (pairInput.analyze pairFile (componentsOf [pairStatement])).components = added ∧
        ∃! i : Nat, ∃ c, added[i]? = some c ∧
          Represents pairInput.source "A" (markupArrow 10 "<a/>") c := by
  have hPlaced : ScriptPlaced [pairStatement] := by decide
  have hPassed : (validate [pairStatement] (componentsOf [pairStatement]) {}
      ⟨"pair", pairInput.source, []⟩).1.passed = true :=
    passed_iff.mpr ⟨by decide, by decide +kernel⟩
  obtain ⟨added, hAdded, hRepresented⟩ :=
    pairInput.analyze_represents_iff pairFile [] hPlaced hPassed
  have hMarkups : (markupArrow 10 "<a/>").returnedMarkups = [⟨⟨25, 35⟩, ⟨30, 34⟩, false⟩] := by
    decide
  have hReturns : (markupArrow 10 "<a/>").Returns ⟨30, 34⟩ :=
    Tree.returns_of_mem_returnedMarkups (hMarkups ▸ List.mem_singleton_self _)
  have hDeclares : pairStatement.DeclaresFunction "A" (markupArrow 10 "<a/>") :=
    declaresFunction_markupVariable List.mem_cons_self
  refine ⟨hPlaced, hPassed, added, hAdded, ?_⟩
  exact (hRepresented pairStatement List.mem_cons_self "A" _ hDeclares ⟨_, hReturns⟩).mpr
    ⟨Or.inr ⟨_, _, rfl, rfl, rfl⟩, by rw [hMarkups]; exact List.cons_ne_nil _ _⟩

/-- The second one becomes none, and the file passes validation. -/
theorem AnalysisInput.not_represents_second :
    (validate [pairStatement] (componentsOf [pairStatement]) {}
        ⟨"pair", pairInput.source, []⟩).1.passed = true ∧
      pairStatement.DeclaresFunction "B" (markupArrow 43 "<b/>") ∧
      (markupArrow 43 "<b/>").returnedMarkups = [⟨⟨58, 68⟩, ⟨63, 67⟩, false⟩] ∧
      ∀ c ∈ (pairInput.analyze pairFile (componentsOf [pairStatement])).components,
        ¬ Represents pairInput.source "B" (markupArrow 43 "<b/>") c := by
  have hDeclares : pairStatement.DeclaresFunction "B" (markupArrow 43 "<b/>") :=
    declaresFunction_markupVariable (List.mem_cons_of_mem _ List.mem_cons_self)
  have hNames : ∀ c ∈ (pairInput.analyze pairFile (componentsOf [pairStatement])).components,
      c.name ≠ "B" := by decide +kernel
  exact ⟨passed_iff.mpr ⟨by decide, by decide +kernel⟩, hDeclares, by decide,
    fun c hc hRepresents => hNames c hc hRepresents.name⟩

end ComponentAnalysis
