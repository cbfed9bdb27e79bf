import ComponentAnalysis.Component.Basic
import ComponentAnalysis.Component.Template
import ComponentAnalysis.Style.Variables

/-! Analysis of the components of a file into what is kept about them. -/
namespace ComponentAnalysis

variable {Ast : Type}

/-- What the analysis of all components of a file shares. -/
structure AnalysisInput (Ast : Type) where
  source : String
  program : List Tree
  imports : Imports
  templates : TemplateCompiler Ast
  options : CompilerOptions

/-- The first argument of the first call of a family, as written. -/
def payloadOf (source : String) (base : MacroBase) (sites : List MacroSite) : Option Payload := do
  let site ← (sitesOf base sites).head?
  let argument ← site.arguments.head?
  return ⟨argument.span.text source, argument.span⟩

/-- The language and the text of a style argument. -/
def styleContent? : ArgumentShape → Option (StyleLanguage × Span)
  | .string content => some (.css, content)
  | .template content _ => some (.css, content)
  | .tagged tag content _ => (StyleLanguage.ofTag? tag).map fun language => (language, content)
  | _ => none

/-- The style that the first style macro of a component declares. -/
def styleOf (source component : String) (sites : List MacroSite) : Option StyleDefinition := do
  let site ← (sitesOf .style sites).head?
  let argument ← site.arguments.head?
  let (language, content) ← styleContent? argument.shape
  return {
    language
    source := content.text source
    range := content
    isScoped := site.name.variant = some .isScoped
    component }

/-- Note that templates use names; names that are not imported change nothing. -/
def Imports.markUsed (imports : Imports) (names : List String) : Imports :=
  { imports with
    records := names.foldl
      (fun records name => records.modify name fun r => { r with isUsedInTemplate := true })
      imports.records }

/-- A component before its style and its template are added. -/
def AnalysisInput.component (input : AnalysisInput Ast) (fileId : String)
    (declaration : ComponentDeclaration) (function : Tree) : Component Ast :=
  let sites := declaration.sites
  let formal := match formalProps function input.source with
    | .ok formal => formal
    | .error _ => none
  let emits := (sitesOf .emits sites).head?
  let parameterName := (formal.map FormalProps.parameterName).filter fun name => name ≠ ""
  let analysis :=
    classifyBindings input.program input.imports.reactivity declaration function parameterName
  { name := declaration.name
    exportKind := declaration.exportKind
    propsAlias := (formal.map FormalProps.parameterName).getD ""
    props := (formal.map FormalProps.props).getD (macroProps sites input.source)
    emitsAlias := (emits.bind MacroSite.binding).getD ""
    emits := ((emits.bind MacroSite.typeArgument).bind MacroTypeArgument.literalMembers).getD []
    expose := payloadOf input.source .expose sites
    options := payloadOf input.source .options sites
    bindings := analysis.bindings
    maybeRefs := analysis.maybeRefs
    scopeId := Digest.scopeId fileId declaration.name
    range := declaration.span }

/-- Add the template that a component returns, compiled. Gives also the names that it uses. -/
def AnalysisInput.addTemplate (input : AnalysisInput Ast) (component : Component Ast)
    (markup : Markup) : Component Ast × List String :=
  let source := markup.content.text input.source
  let output := input.templates
    { component := component.name
      source
      range := markup.content
      bindings := component.bindings
      options := input.options }
  ({ component with
      template := some source
      templateRange := some markup.content
      templateAst := output.ast },
    output.references)

/-- Analyze one component and add it to its file. The first style of a scope stays. -/
def AnalysisInput.addComponent (input : AnalysisInput Ast) (file : FileAnalysis Ast)
    (declaration : ComponentDeclaration) : FileAnalysis Ast :=
  match declaration.function with
  | none => file
  | some function =>
    let component := input.component file.fileId declaration function
    let style := styleOf input.source declaration.name declaration.sites
    let component := match style with
      | some style =>
        if style.isScoped then
          { component with
            styleVariables := StyleVariables.bindings declaration.name style.source }
        else component
      | none => component
    let styles := match style with
      | some style => file.styles.insertIfAbsent component.scopeId style
      | none => file.styles
    let (component, used) := match declaration.markup with
      | some markup => input.addTemplate component markup
      | none => (component, [])
    { file with
      styles
      imports := file.imports.markUsed used
      components := file.components ++ [component] }

/-- Fill a file with its imports, components and styles. -/
def AnalysisInput.analyze (input : AnalysisInput Ast) (file : FileAnalysis Ast)
    (declarations : List ComponentDeclaration) : FileAnalysis Ast :=
  declarations.foldl input.addComponent { file with imports := input.imports }

end ComponentAnalysis
