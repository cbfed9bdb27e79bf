import ComponentAnalysis.Component.Declaration

/-! The props of a component: those of its parameter's type, or those of its macro calls. -/
namespace ComponentAnalysis

/-- What is known about one prop. -/
structure PropMeta where
  isRequired : Bool := false
  isBool : Bool := false
  isFromMacro : Bool := false
  /-- The declared type as written. -/
  declaredType : Option String := none
  defaultValue : Option String := none
  validator : Option String := none
  range : Span := {}
  deriving DecidableEq, Repr

namespace PropMeta

def hasDefault (p : PropMeta) : Bool := p.defaultValue.isSome

def hasValidator (p : PropMeta) : Bool := p.validator.isSome

end PropMeta

/-- Why the parameter of a component cannot be read as its props. -/
inductive PropsIssue where
  | tooManyParameters (span : Span)
  | notIdentifier (span : Span)
  | notTypeLiteral (span : Span)
  deriving DecidableEq, Repr

/-- The props that a parameter declares. -/
structure FormalProps where
  parameterName : String
  span : Span
  props : List (String × PropMeta)
  deriving DecidableEq, Repr

namespace Tree

def ascription? (t : Tree) : Option Tree := t.child? (· = .typeAscription)

def ascribedType? (t : Tree) : Option Tree := t.ascription?.bind fun a => a.children.head?

/-- The pattern of a parameter, behind its decorators. -/
def parameterPattern? (t : Tree) : Option Tree := t.children.find? fun c => c.kind ≠ .decorator

/-- The prop that a property signature declares, unless its key has no name. -/
def signatureProp? (source : String) (t : Tree) : Option (String × PropMeta) :=
  match t.kind with
  | .propertySignature isOptional =>
    if t.propertySignatureName = "" then none
    else some (t.propertySignatureName,
      { isRequired := !isOptional
        isBool := t.ascribedType?.any fun type => type.kind = .booleanType
        declaredType := t.ascribedType?.map fun type => type.span.text source
        range := t.span })
  | _ => none

end Tree

/-- The props that the parameter of a component function declares; nothing if it has none. -/
def formalProps (function : Tree) (source : String) : Except PropsIssue (Option FormalProps) :=
  match function.parameters with
  | [] => .ok none
  | _ :: _ :: _ => .error (.tooManyParameters ((function.parameterList?.map Tree.span).getD {}))
  | [parameter] =>
    match parameter.parameterPattern?.bind Tree.bindingName? with
    | none => .error (.notIdentifier parameter.span)
    | some name =>
      match parameter.ascription? with
      | none => .error (.notTypeLiteral parameter.span)
      | some ascription =>
        match ascription.children.head? with
        | some (.node .typeLiteral _ members) =>
          .ok (some ⟨name, parameter.span, members.filterMap (Tree.signatureProp? source)⟩)
        | _ => .error (.notTypeLiteral ascription.span)

namespace MacroSite

/-- The prop that a macro call declares. -/
def propMeta (site : MacroSite) (source : String) : PropMeta :=
  let argument (n : Nat) := (site.arguments[n]?).map fun a => a.span.text source
  let declaredBool := site.typeArgument.any MacroTypeArgument.isBoolean
  let plain : PropMeta :=
    { isBool := declaredBool
      isFromMacro := true
      declaredType := site.typeArgument.map fun type => type.span.text source
      range := site.span }
  match site.name.variant with
  | some .withDefault =>
    let defaultsToBool := site.arguments.head?.any fun a =>
      match a.shape with
      | .boolean _ => true
      | _ => false
    { plain with
      isBool := declaredBool || defaultsToBool
      defaultValue := argument 0
      validator := argument 1 }
  | some .isOptional => { plain with validator := argument 0 }
  | _ => { plain with isRequired := true, validator := argument 0 }

end MacroSite

/-- The props that macro calls declare, in order. A call that binds no name declares none. -/
def macroProps (sites : List MacroSite) (source : String) : List (String × PropMeta) :=
  (sitesOf .prop sites).filterMap fun site =>
    site.binding.map fun name => (name, site.propMeta source)

end ComponentAnalysis
