import ComponentAnalysis.Component.Bindings
import ComponentAnalysis.Component.Props
import ComponentAnalysis.Style.Language
import ComponentAnalysis.Tree.Index
import ComponentAnalysis.Validation.Finding

/-! The checks of a component file, each as the faults it finds. -/
namespace ComponentAnalysis

/-- The faults of the top level: statements that may not stand there, and macro calls outside of
components. -/
def rootFaults (program : List Tree) (components : List ComponentDeclaration) : List Located :=
  program.zipIdx.flatMap fun (statement, position) =>
    if !statement.isRootStatement then [(.invalidRootStatement, statement.span)]
    else if components.any fun c => c.position = position then []
    else statement.macroCalls.map fun call => (.macroOutsideComponent, call)

/-- The faults of a style macro's argument. -/
def styleFaults (name : MacroName) : ArgumentShape → List Finding
  | .string _ => []
  | .template _ isInterpolated => if isInterpolated then [.interpolatedStyle name] else []
  | .tagged tag _ isInterpolated =>
    if (StyleLanguage.ofTag? tag).isNone then [.unknownStyleLanguage name tag]
    else if isInterpolated then [.interpolatedStyle name]
    else []
  | _ => [.notAStyle name]

def siteFaults (site : MacroSite) : List Finding :=
  let count := site.arguments.length
  match site.name.base with
  | .prop =>
    (if site.binding.isNone then [.unboundProp site.name] else []) ++
      if site.name.variant = some .withDefault then
        if count = 0 then [.missingDefault site.name]
        else if count > 2 then [.surplusDefaultArguments site.name]
        else []
      else
        (if site.typeArgumentCount = 0 then [.missingTypeArgument site.name] else []) ++
          if count > 1 then [.surplusArguments site.name] else []
  | .emits =>
    let hasLiteral := site.typeArgument.any fun type => type.literalMembers.isSome
    if !hasLiteral || count ≠ 0 then [.malformedEmits site.name] else []
  | .expose | .options | .style =>
    match site.arguments with
    | [argument] =>
      (if site.name.base = .options && argument.shape ≠ .object then [.notAnObject site.name]
        else []) ++
        if site.name.base = .style then styleFaults site.name argument.shape else []
    | _ => [.notOneArgument site.name]

/-- The fault of a parameter that cannot be read as props. -/
def PropsIssue.fault : PropsIssue → Located
  | tooManyParameters span => (.tooManyParameters, span)
  | notIdentifier span => (.parameterNotIdentifier, span)
  | notTypeLiteral span => (.parameterNotTypeLiteral, span)

/-- The name of the props parameter, if it can be read. -/
def propsAlias? (function : Tree) (source : String) : Option String :=
  match formalProps function source with
  | .ok (some formal) => some formal.parameterName
  | _ => none

/-- The faults of a component's props parameter. -/
def parameterFaults (component : ComponentDeclaration) (function : Tree) (source : String) :
    List Located :=
  match formalProps function source with
  | .error issue => [issue.fault]
  | .ok none => []
  | .ok (some _) =>
    (sitesOf .prop component.sites).head?.toList.map fun site =>
      (.ignoredPropMacros component.name, site.span)

/-- The references of hoisted macro calls to names that a later statement of the body declares. -/
def hoistingFaults (declarations : Table Nat) (body : List Tree) (sites : List MacroSite) :
    List Located :=
  let index := TreeIndex.ofTrees body
  (sites.filter fun site => site.name.base.isHoisted).flatMap fun site =>
    match (index.find? site.span).bind index.rootOf? with
    | none => []
    | some position =>
      site.references.filterMap fun reference =>
        match declarations.find? reference.name with
        | some declaredAt =>
          if declaredAt > position then some (.forwardReference reference.name, reference.span)
          else none
        | none => none

/-- All faults of a component, check by check. -/
def componentFaults (program : List Tree) (apis : Reactivity) (source : String)
    (component : ComponentDeclaration) : List Located :=
  match component.function with
  | none => [(.notAFunction component.name, component.span)]
  | some function =>
    let parameterName := propsAlias? function source
    let markupFaults : List Located :=
      match component.markup with
      | some markup => if markup.isInterpolated then [(.interpolatedMarkup, markup.span)] else []
      | none => []
    let repeated := (duplicatedSingletons component.sites).map fun site =>
      (Finding.repeatedMacro site.name.base, site.span)
    let ofSites := component.sites.flatMap fun site =>
      (siteFaults site).map fun fault => (fault, site.span)
    let analysis := classifyBindings program apis component function parameterName
    markupFaults ++ parameterFaults component function source ++ repeated ++ ofSites ++
      hoistingFaults analysis.declarations function.bodyStatements component.sites

end ComponentAnalysis
