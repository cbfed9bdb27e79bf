import ComponentAnalysis.Proofs.Style.Registry
import ComponentAnalysis.Style.Compile

/-! Which variables a style is compiled with. They are kept with the component that is found for the
style by its name. That is the first component of the name, whether or not it has a style. -/
namespace ComponentAnalysis

variable {Ast State : Type}

/-- What a search finds in one list is related to what it finds in a related one. -/
theorem exists_find?_of_forall₂ {α β : Type} {R : α → β → Prop} {p : α → Bool} {q : β → Bool}
    {as : List α} {bs : List β} (h : List.Forall₂ R as bs) (hSame : ∀ a b, R a b → p a = q b)
    {b : β} (hFound : bs.find? q = some b) : ∃ a, as.find? p = some a ∧ R a b := by
  induction h with
  | nil => cases hFound
  | @cons a b' as bs hHead _ ih =>
      cases hHit : p a with
      | true =>
          rw [List.find?_cons_of_pos (by rw [← hSame a b' hHead, hHit])] at hFound
          exact ⟨a, List.find?_cons_of_pos hHit, Option.some.inj hFound ▸ hHead⟩
      | false =>
          rw [List.find?_cons_of_neg (by rw [← hSame a b' hHead, hHit]; exact Bool.false_ne_true)]
            at hFound
          rw [List.find?_cons_of_neg (by rw [hHit]; exact Bool.false_ne_true)]
          exact ih hFound

/-- The first declaration of a name that has a function. -/
def firstNamed? (declarations : List ComponentDeclaration) (name : String) :
    Option ComponentDeclaration :=
  declarations.find? fun d => d.function.isSome ∧ d.name = name

namespace AnalysisInput

variable {input : AnalysisInput Ast} {file : FileAnalysis Ast}
  {declarations : List ComponentDeclaration} {scopeId : String} {style : StyleDefinition}
  (hEmpty : file.components = []) (hStyles : file.styles = .empty)
  (hStyle : (input.analyze file declarations).styles.find? scopeId = some style)

include hStyles hStyle

/-- A style is registered under the scope of its component. -/
theorem scopeId_of_registered : Digest.scopeId file.fileId style.component = scopeId := by
  rw [input.find?_styles_analyze declarations hStyles] at hStyle
  obtain ⟨d, -, hBrought⟩ := List.exists_of_findSome?_eq_some hStyle
  obtain ⟨hScope, hOwn⟩ := Option.ite_none_right_eq_some.mp hBrought
  rw [component_of_styleOf? hOwn, hScope]

/-- If the first declaration of the name of a registered style has a style, it is that one. -/
theorem styleOf?_first {d : ComponentDeclaration}
    (hFirst : firstNamed? declarations style.component = some d) :
    input.styleOf? d = none ∨ input.styleOf? d = some style := by
  have hScope := scopeId_of_registered hStyles hStyle
  rw [input.find?_styles_analyze declarations hStyles, List.findSome?_eq_some_iff] at hStyle
  obtain ⟨before, owner, after, rfl, hBrought, hBefore⟩ := hStyle
  have hOwn := (Option.ite_none_right_eq_some.mp hBrought).2
  rw [firstNamed?, List.find?_append, Option.or_eq_some_iff] at hFirst
  rcases hFirst with hEarlier | ⟨-, hOwner⟩
  · -- An earlier declaration of the name is in the same scope, where it would have come first.
    left
    have hNone := hBefore d (List.mem_of_find?_eq_some hEarlier)
    have hBoth := List.find?_some hEarlier
    rw [decide_eq_true_eq] at hBoth
    rwa [styleUnder?, if_pos (by rw [hBoth.2, hScope])] at hNone
  · right
    have hFunction := (styleOf?_eq_some_iff.mp hOwn).1
    rw [List.find?_cons_of_pos (by simp [hFunction, component_of_styleOf? hOwn]),
      Option.some.injEq] at hOwner
    rw [← hOwner, hOwn]

include hEmpty in
/-- The owner that is found for a style comes from the first declaration of its name. -/
theorem exists_owner : ∃ d c, firstNamed? declarations style.component = some d ∧
    (input.analyze file declarations).styleOwner? scopeId = some c ∧
      input.ComesFrom file.fileId d c := by
  have hScope := scopeId_of_registered hStyles hStyle
  obtain ⟨c, -, hOwner, -, -⟩ :=
    (input.styleRegistry_analyze hEmpty hStyles declarations).owner scopeId style hStyle
  have hFound := hOwner
  rw [FileAnalysis.styleOwner?, hStyle, Option.bind_some] at hFound
  have hAll := input.forall₂_analyze declarations hEmpty
  have hSame : ∀ d c, input.ComesFrom file.fileId d c →
      decide (d.name = style.component) =
        decide (c.scopeId = scopeId ∧ c.name = style.component) := by
    intro d c hFrom
    rw [hFrom.scopeId, hFrom.name, decide_eq_decide]
    constructor
    · intro hName
      exact ⟨by rw [hName, hScope], hName⟩
    · exact And.right
  obtain ⟨d, hFirst, hFrom⟩ := exists_find?_of_forall₂ hAll hSame hFound
  simp only [List.find?_filter, decide_eq_true_eq] at hFirst
  exact ⟨d, c, hFirst, hOwner, hFrom⟩

variable (input file) in
include hEmpty in
/-- A style is compiled with its own variables exactly if it has none or the first declaration of
its name has this style. -/
theorem styleVariables_owner_iff :
    ((((input.analyze file declarations).styleOwner? scopeId).map
      Component.styleVariables).getD .empty = style.variables) ↔
        style.variables = .empty ∨
          ∃ d, firstNamed? declarations style.component = some d ∧
            styleOf input.source d.name d.sites = some style := by
  obtain ⟨d, c, hFirst, hOwner, hFrom⟩ := exists_owner hEmpty hStyles hStyle
  rw [hOwner, Option.map_some, Option.getD_some, hFrom.styleVariables]
  rcases styleOf?_first hStyles hStyle hFirst with hNone | hSome
  · rw [hNone, Option.elim_none]
    constructor
    · exact fun h => Or.inl h.symm
    · rintro (hVariables | ⟨d', hFirst', hStyle'⟩)
      · exact hVariables.symm
      · rw [hFirst, Option.some.injEq] at hFirst'
        rw [← hFirst'] at hStyle'
        have hSome := styleOf?_eq_some_iff.mpr ⟨hFrom.function, hStyle'⟩
        rw [hNone] at hSome
        cases hSome
  · rw [hSome, Option.elim_some]
    exact ⟨fun _ => Or.inr ⟨d, hFirst, (styleOf?_eq_some_iff.mp hSome).2⟩, fun _ => rfl⟩

end AnalysisInput

/-- In a compiled file, the compiler of styles is given the registered style of a scope. With it go
the variables of the style exactly if it has none or the first declaration of its name has it. -/
theorem Compiler.compileStyle_analyzeFile_iff (compiler : Compiler Ast) (code fileId : String)
    {hooks : Hooks Ast State} (hObserves : hooks.Observes) (state : State)
    {scopeId : String} {style : StyleDefinition}
    (hStyle : (compiler.analyzeFile hooks state code fileId).1.styles.find? scopeId = some style) :
    ∃ program styleVariables, (compiler.parser code).program? = some program ∧
      (∀ {Output : Type} (styles : StyleCompiler Output),
        (compiler.analyzeFile hooks state code fileId).1.compileStyle styles scopeId =
          styles
            { fileId, scopeId
              component := style.component
              language := style.language
              source := style.source
              isScoped := style.isScoped
              styleVariables }) ∧
      (styleVariables = style.variables ↔
        style.variables = .empty ∨
          ∃ d, firstNamed? (componentsOf program) style.component = some d ∧
            styleOf code d.name d.sites = some style) := by
  have hFileId : (compiler.analyzeFile hooks state code fileId).1.fileId = fileId :=
    fileId_analyzeFile hObserves state
  have hLeaves := compiler.leaves_analyzeFile code fileId hObserves state
  generalize (compiler.analyzeFile hooks state code fileId).1 = file at hStyle hFileId hLeaves
  cases hLeaves with
  | rejected _ hStyles =>
      rw [hStyles, Table.find?_empty] at hStyle
      cases hStyle
  | @analyzed program hParse _ =>
      have hVariables := (compiler.analysisInput code program).styleVariables_owner_iff
        (checkedFile code fileId program) rfl rfl hStyle
      refine ⟨program, _, hParse, fun styles => ?_, hVariables⟩
      rw [FileAnalysis.compileStyle, hStyle, hFileId]

/-- A component with a style that takes a variable, behind other text. -/
def boundCode (front : String) : String :=
  front ++ "function A() \x7b\n  vineStyle.scoped('p \x7b color: v-bind(c) \x7d')\n" ++
    "  return vine`<a/>`\n\x7d\n"

/-- The style of the component behind a text of the given length. -/
def boundStyle (front : Nat) : StyleDefinition where
  language := .css
  source := "p \x7b color: v-bind(c) \x7d"
  range := ⟨front + 35, front + 57⟩
  isScoped := true
  component := "A"

/-- A style with a variable, compiled with that variable. -/
theorem Compiler.compileStyle_bound :
    watcher.Observes ∧ (watched (boundCode "")).styles.find? "1a3aee77" = some (boundStyle 0) ∧
      (boundStyle 0).variables.entries = [("c", "2d129d98")] ∧
      ∃ request, (watched (boundCode "")).compileStyle (echoCompiler []) "1a3aee77" =
        .ok request ∧ request.styleVariables = (boundStyle 0).variables := by
  have hObserves : watcher.Observes := fun _ _ _ => rfl
  obtain ⟨hStyle, hVariables, hFirst⟩ :
      (watched (boundCode "")).styles.find? "1a3aee77" = some (boundStyle 0) ∧
      (boundStyle 0).variables.entries = [("c", "2d129d98")] ∧
      (scriptCompiler.parser (boundCode "")).program?.map (fun program =>
        (firstNamed? (componentsOf program) "A").bind fun d =>
          styleOf (boundCode "") d.name d.sites) = some (some (boundStyle 0)) := by
    decide +kernel
  obtain ⟨program, taken, hParse, hCompile, hIff⟩ :=
    Compiler.compileStyle_analyzeFile_iff scriptCompiler (boundCode "") "f" hObserves [] hStyle
  rw [hParse, Option.map_some, Option.some.injEq, Option.bind_eq_some_iff] at hFirst
  exact ⟨hObserves, hStyle, hVariables, _, hCompile (echoCompiler []), hIff.mpr (Or.inr hFirst)⟩

/-- The same style behind a component of the same name without a style. It is compiled without the
variable that it takes. -/
theorem Compiler.not_compileStyle_shadowedStyle :
    (watched (boundCode "function A() \x7b return vine`<b/>` \x7d\n")).styles.find? "1a3aee77" =
        some (boundStyle 35) ∧
      (boundStyle 35).variables.entries = [("c", "2d129d98")] ∧
      ((watched (boundCode "function A() \x7b return vine`<b/>` \x7d\n")).compileStyle
        (echoCompiler []) "1a3aee77").toOption.map
          (fun request => request.styleVariables.entries) = some [] := by
  decide +kernel

end ComponentAnalysis
