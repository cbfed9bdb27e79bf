import ComponentAnalysis.Proofs.Validation.Accepted

/-! Validation is complete for the analysis: of a file that passes, every component is kept, and of
every component all that its macro calls declare. -/
namespace ComponentAnalysis

variable {Ast : Type}

/-- A payload is the argument of the only call of a family as written; without a call there is
none. -/
inductive HoldsArgument (source : String) (base : MacroBase) (sites : List MacroSite) :
    Option Payload → Prop where
  | absent (hNone : sitesOf base sites = []) : HoldsArgument source base sites none
  | present (site : MacroSite) (argument : MacroArgument) (hOnly : sitesOf base sites = [site])
      (hArgument : site.arguments = [argument]) :
      HoldsArgument source base sites (some ⟨argument.span.text source, argument.span⟩)

/-- The listed events are the literal members of the only call of `vineEmits`; without a call there
are none. -/
inductive HoldsMembers (sites : List MacroSite) : List String → Prop where
  | absent (hNone : sitesOf .emits sites = []) : HoldsMembers sites []
  | present (site : MacroSite) (type : MacroTypeArgument) (members : List String)
      (hOnly : sitesOf .emits sites = [site]) (hType : site.typeArgument = some type)
      (hMembers : type.literalMembers = some members) : HoldsMembers sites members

/-- A prop is the one that a call declares. -/
def IsPropOf (source : String) (site : MacroSite) (prop : String × PropMeta) : Prop :=
  site.binding = some prop.1 ∧ prop.2 = site.propMeta source

/-- Nothing that a declaration says is missing from a component and the styles of its file. -/
structure Retains (source fileId : String) (styles : Table StyleDefinition)
    (declaration : ComponentDeclaration) (component : Component Ast) : Prop where
  name : component.name = declaration.name
  scopeId : component.scopeId = Digest.scopeId fileId declaration.name
  props : ∃ f, declaration.function = some f ∧
    (formalProps f source = .ok none →
      List.Forall₂ (IsPropOf source) (sitesOf .prop declaration.sites) component.props)
  emits : HoldsMembers declaration.sites component.emits
  expose : HoldsArgument source .expose declaration.sites component.expose
  options : HoldsArgument source .options declaration.sites component.options
  style : sitesOf .style declaration.sites ≠ [] →
    (∃ style, styleOf source declaration.name declaration.sites = some style) ∧
      ∃ registered, styles.find? component.scopeId = some registered

/-- Registering more styles takes nothing away. -/
theorem Retains.mono {source fileId : String} {styles styles' : Table StyleDefinition}
    {declaration : ComponentDeclaration} {component : Component Ast}
    (h : Retains source fileId styles declaration component)
    (hMore : ∀ scopeId style, styles.find? scopeId = some style →
      ∃ style', styles'.find? scopeId = some style') :
    Retains source fileId styles' declaration component := by
  refine { h with style := ?_ }
  intro hSite
  obtain ⟨hStyle, registered, hRegistered⟩ := h.style hSite
  exact ⟨hStyle, hMore _ _ hRegistered⟩

section

variable (source component : String) {sites : List MacroSite}
  (hRepeated : duplicatedSingletons sites = []) (hSound : ∀ site ∈ sites, siteFaults site = [])

/-- The only site of a family is a site of that family. -/
theorem mem_of_sitesOf_eq {site : MacroSite} {base : MacroBase} (h : sitesOf base sites = [site]) :
    site ∈ sites ∧ site.name.base = base := by
  have hMem : site ∈ sitesOf base sites := by
    rw [h]
    exact List.mem_cons_self
  simpa [sitesOf] using hMem

include hSound

/-- Every sound call of the `vineProp` family gives one prop. -/
theorem macroProps_forall₂ :
    List.Forall₂ (IsPropOf source) (sitesOf .prop sites) (macroProps sites source) := by
  have hBound : ∀ site ∈ sitesOf .prop sites, ∃ name, site.binding = some name := by
    intro site hSite
    obtain ⟨hSite, hBase⟩ := List.mem_filter.mp hSite
    exact binding_of_siteFaults_nil (hSound site hSite) (of_decide_eq_true hBase)
  rw [macroProps]
  generalize sitesOf .prop sites = propSites at hBound
  induction propSites with
  | nil => exact List.Forall₂.nil
  | cons site rest ih =>
      obtain ⟨name, hName⟩ := hBound site List.mem_cons_self
      have hRest := ih fun other hOther => hBound other (List.mem_cons_of_mem site hOther)
      rw [List.filterMap_cons, hName]
      exact List.Forall₂.cons ⟨hName, rfl⟩ hRest

include hRepeated

/-- Validation leaves at most one call of `vineEmits`, and that with a literal type, so all of its
members are kept. -/
theorem holdsMembers : HoldsMembers sites
    (((((sitesOf .emits sites).head?).bind MacroSite.typeArgument).bind
      MacroTypeArgument.literalMembers).getD []) := by
  have hSingleton : MacroBase.emits.isSingleton = true := rfl
  rcases sitesOf_eq_of_duplicatedSingletons_nil hRepeated hSingleton with hNone | ⟨site, hOnly⟩
  · rw [hNone]
    exact HoldsMembers.absent hNone
  · obtain ⟨hSite, hBase⟩ := mem_of_sitesOf_eq hOnly
    obtain ⟨-, type, members, hType, hMembers⟩ :=
      (siteFaults_emits_iff hBase).mp (hSound site hSite)
    rw [hOnly, List.head?_cons, Option.bind_some, hType, Option.bind_some, hMembers]
    exact HoldsMembers.present site type members hOnly hType hMembers

/-- Validation leaves at most one call of these families, and that with a single argument. -/
theorem payloadOf_holdsArgument {base : MacroBase} (hBase : base = .expose ∨ base = .options) :
    HoldsArgument source base sites (payloadOf source base sites) := by
  have hSingleton : base.isSingleton = true := by
    rcases hBase with rfl | rfl <;> rfl
  rcases sitesOf_eq_of_duplicatedSingletons_nil hRepeated hSingleton with hNone | ⟨site, hOnly⟩
  · have hPayload : payloadOf source base sites = none := by simp [payloadOf, hNone]
    rw [hPayload]
    exact HoldsArgument.absent hNone
  · obtain ⟨hSite, hFamily⟩ := mem_of_sitesOf_eq hOnly
    have hTakesValue : site.name.base = .expose ∨ site.name.base = .options ∨
        site.name.base = .style := by
      rw [hFamily]
      exact hBase.imp id Or.inl
    obtain ⟨argument, hArgument⟩ := arguments_of_siteFaults_nil (hSound site hSite) hTakesValue
    have hPayload : payloadOf source base sites =
        some ⟨argument.span.text source, argument.span⟩ := by
      simp [payloadOf, hOnly, hArgument]
    rw [hPayload]
    exact HoldsArgument.present site argument hOnly hArgument

/-- A component with a style macro that is accepted has a style. -/
theorem exists_styleOf (hSome : sitesOf .style sites ≠ []) :
    ∃ style, styleOf source component sites = some style := by
  have hSingleton : MacroBase.style.isSingleton = true := rfl
  rcases sitesOf_eq_of_duplicatedSingletons_nil hRepeated hSingleton with hNone | ⟨site, hOnly⟩
  · exact absurd hNone hSome
  · obtain ⟨hSite, hBase⟩ := mem_of_sitesOf_eq hOnly
    have hSiteSound := hSound site hSite
    obtain ⟨argument, hArgument⟩ :=
      arguments_of_siteFaults_nil hSiteSound (Or.inr (Or.inr hBase))
    obtain ⟨⟨language, content⟩, hContent⟩ :=
      styleContent?_of_siteFaults_nil hSiteSound hBase hArgument
    simp [styleOf, hOnly, hArgument, hContent]

end

namespace AnalysisInput

variable (input : AnalysisInput Ast) (file : FileAnalysis Ast)
  (declaration : ComponentDeclaration)

/-- Adding components does not rename the file. -/
theorem fileId_addComponent : (input.addComponent file declaration).fileId = file.fileId := by
  simp only [addComponent]
  split <;> rfl

/-- A declaration with a function adds one component to its file, and the style that it has. Only
the template and the style variables are added to what the function declares. -/
theorem addComponent_of_function {f : Tree} (hFunction : declaration.function = some f) :
    (∃ styleVariables template templateRange templateAst,
      (input.addComponent file declaration).components = file.components ++
        [{ input.component file.fileId declaration f with
            styleVariables, template, templateRange, templateAst }]) ∧
      (input.addComponent file declaration).styles =
        match styleOf input.source declaration.name declaration.sites with
        | some style =>
          file.styles.insertIfAbsent (Digest.scopeId file.fileId declaration.name) style
        | none => file.styles := by
  simp only [addComponent, hFunction]
  cases styleOf input.source declaration.name declaration.sites with
  | none => cases declaration.markup <;> exact ⟨⟨_, _, _, _, rfl⟩, rfl⟩
  | some style =>
      by_cases hScoped : style.isScoped = true
      · simp only [if_pos hScoped]
        cases declaration.markup <;> exact ⟨⟨_, _, _, _, rfl⟩, rfl⟩
      · simp only [if_neg hScoped]
        cases declaration.markup <;> exact ⟨⟨_, _, _, _, rfl⟩, rfl⟩

/-- A scope with a style keeps one. -/
theorem find?_styles_addComponent {scopeId : String} {style : StyleDefinition}
    (h : file.styles.find? scopeId = some style) :
    ∃ style', (input.addComponent file declaration).styles.find? scopeId = some style' := by
  cases hFunction : declaration.function with
  | none => exact ⟨style, by simpa [addComponent, hFunction] using h⟩
  | some f =>
      rw [(input.addComponent_of_function file declaration hFunction).2]
      split
      · rw [Table.find?_insertIfAbsent]
        split
        · exact ⟨_, rfl⟩
        · exact ⟨style, h⟩
      · exact ⟨style, h⟩

/-- It keeps one all along. -/
theorem find?_styles_foldl {scopeId : String} {style : StyleDefinition}
    (declarations : List ComponentDeclaration) (h : file.styles.find? scopeId = some style) :
    ∃ style', (declarations.foldl input.addComponent file).styles.find? scopeId = some style' := by
  induction declarations generalizing file style with
  | nil => exact ⟨style, h⟩
  | cons declaration declarations ih =>
      obtain ⟨style', h'⟩ := input.find?_styles_addComponent file declaration h
      exact ih _ h'

variable {program : List Tree} {apis : Reactivity}

/-- Adding a component without an error keeps all that its declaration says. -/
theorem retains_addComponent
    (hNoError : ∀ fault ∈ componentFaults program apis input.source declaration,
      fault.1.severity ≠ .error) :
    ∃ component, (input.addComponent file declaration).components = file.components ++ [component] ∧
      Retains input.source file.fileId (input.addComponent file declaration).styles declaration
        component := by
  obtain ⟨f, hFunction⟩ := exists_function_of_no_error hNoError
  have hRepeated := duplicatedSingletons_eq_nil_of_no_error hNoError
  have hSound : ∀ site ∈ declaration.sites, siteFaults site = [] :=
    fun site hSite => siteFaults_eq_nil_of_no_error hNoError hSite
  obtain ⟨⟨_, _, _, _, hComponents⟩, hStyles⟩ :=
    input.addComponent_of_function file declaration hFunction
  refine ⟨_, hComponents, rfl, rfl, ⟨f, hFunction, ?_⟩, holdsMembers hRepeated hSound,
    payloadOf_holdsArgument input.source hRepeated hSound (Or.inl rfl),
    payloadOf_holdsArgument input.source hRepeated hSound (Or.inr rfl), ?_⟩
  · intro hFormal
    have hProps : (input.component file.fileId declaration f).props =
        macroProps declaration.sites input.source := by
      simp only [AnalysisInput.component, hFormal]
      rfl
    rw [hProps]
    exact macroProps_forall₂ input.source hSound
  · intro hSome
    obtain ⟨style, hStyle⟩ :=
      exists_styleOf input.source declaration.name hRepeated hSound hSome
    refine ⟨⟨style, hStyle⟩, ?_⟩
    rw [hStyles, hStyle, Table.find?_insertIfAbsent]
    exact ⟨_, if_pos rfl⟩

/-- A run over declarations without errors adds one component for each of them, in order. -/
theorem retains_foldl (declarations : List ComponentDeclaration)
    (hNoError : ∀ declaration ∈ declarations,
      ∀ fault ∈ componentFaults program apis input.source declaration,
        fault.1.severity ≠ .error) :
    ∃ added, (declarations.foldl input.addComponent file).components = file.components ++ added ∧
      List.Forall₂ (Retains input.source file.fileId
        (declarations.foldl input.addComponent file).styles) declarations added := by
  induction declarations generalizing file with
  | nil => exact ⟨[], (List.append_nil _).symm, List.Forall₂.nil⟩
  | cons declaration declarations ih =>
      obtain ⟨component, hComponents, hRetains⟩ :=
        input.retains_addComponent file declaration (hNoError declaration List.mem_cons_self)
      obtain ⟨added, hAdded, hAll⟩ := ih (input.addComponent file declaration)
        fun other hOther => hNoError other (List.mem_cons_of_mem declaration hOther)
      rw [fileId_addComponent] at hAll
      refine ⟨component :: added, ?_, List.Forall₂.cons ?_ hAll⟩
      · rw [List.foldl_cons, hAdded, hComponents, List.append_assoc, List.singleton_append]
      · -- The styles of the later components come on top of what the first one registered.
        exact hRetains.mono fun _ _ h => input.find?_styles_foldl _ declarations h

/-- When a file passes validation, its analysis adds exactly one component for each that the file
declares, in the same order, and keeps all that their macro calls declare. -/
theorem analyze_retains (diagnostics : List Diagnostic)
    (hPassed : (validate input.program (componentsOf input.program) input.imports.reactivity
      ⟨file.fileId, input.source, diagnostics⟩).1.passed = true) :
    ∃ added, (input.analyze file (componentsOf input.program)).components =
        file.components ++ added ∧
      List.Forall₂ (Retains input.source file.fileId
        (input.analyze file (componentsOf input.program)).styles)
          (componentsOf input.program) added := by
  obtain ⟨-, hNoError⟩ := passed_iff.mp hPassed
  exact input.retains_foldl { file with imports := input.imports } _ hNoError

end AnalysisInput

/-- A component with one prop, one event and a style. -/
def cardStatement : Tree :=
  .node (.function .declaration) ⟨0, 114⟩
    [.node (.binding "A") ⟨9, 10⟩ [],
      .node .parameters ⟨10, 12⟩ [],
      .node .functionBody ⟨13, 114⟩
        [.node (.variableStatement .const) ⟨17, 45⟩
          [.node (.declarator .const) ⟨23, 45⟩
            [.node (.binding "a") ⟨23, 24⟩ [],
              .node .call ⟨27, 45⟩
                [.node (.reference "vineProp") ⟨27, 35⟩ [],
                  .node .typeArguments ⟨35, 43⟩ [.node .otherType ⟨36, 42⟩ []]]]],
          .node .expressionStatement ⟨48, 73⟩
            [.node .call ⟨48, 73⟩
              [.node (.reference "vineEmits") ⟨48, 57⟩ [],
                .node .typeArguments ⟨57, 71⟩
                  [.node .typeLiteral ⟨58, 70⟩
                    [.node (.propertySignature false) ⟨60, 68⟩
                      [.node (.name "save") ⟨60, 64⟩ [],
                        .node .typeAscription ⟨64, 68⟩ [.node .otherType ⟨66, 68⟩ []]]]]]],
          .node .expressionStatement ⟨76, 92⟩
            [.node .call ⟨76, 92⟩
              [.node (.reference "vineStyle") ⟨76, 85⟩ [],
                .node (.string "p\x7b\x7d") ⟨86, 91⟩ []]],
          .node .returnStatement ⟨95, 112⟩
            [.node .taggedTemplate ⟨102, 112⟩
              [.node (.reference "vine") ⟨102, 106⟩ [],
                .node .template ⟨106, 112⟩
                  [.node (.templateText (some "<a/>")) ⟨107, 111⟩ []]]]]]

def cardInput : AnalysisInput Unit where
  source := "function A() \x7b\n  const a = vineProp<string>()\n" ++
    "  vineEmits<\x7b save: [] \x7d>()\n  vineStyle('p\x7b\x7d')\n  return vine`<a/>`\n\x7d\n"
  program := [cardStatement]
  imports := {}
  templates := .silent Unit
  options := {}

def cardFile : FileAnalysis Unit where
  fileId := "card"
  source := cardInput.source

/-- A component with a prop, an event and a style, all of them kept. -/
theorem analyze_retains_card :
    ∃ added, (cardInput.analyze cardFile (componentsOf [cardStatement])).components = added ∧
      List.Forall₂ (Retains cardInput.source "card"
        (cardInput.analyze cardFile (componentsOf [cardStatement])).styles)
          (componentsOf [cardStatement]) added :=
  cardInput.analyze_retains cardFile []
    (passed_iff.mpr ⟨by decide +kernel, by decide +kernel⟩)

end ComponentAnalysis
