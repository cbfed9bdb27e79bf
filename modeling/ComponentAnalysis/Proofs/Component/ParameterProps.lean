import ComponentAnalysis.Proofs.Component.PropNames
import Mathlib.Data.List.Forall2

/-! The props that the members of a parameter's type are read as. Members that are not properties,
and properties whose keys are no plain names or strings, are left out, so the type is read without
loss exactly if it has none of them. -/
namespace ComponentAnalysis

section

variable {α β : Type} {R : α → β → Prop} {p : α → Bool}

/-- Values of the items that pass are values of all items exactly if all of them pass. -/
theorem forall₂_iff_of_filter {items : List α} {values : List β}
    (h : List.Forall₂ R (items.filter p) values) :
    List.Forall₂ R items values ↔ ∀ a ∈ items, p a = true := by
  constructor
  · intro hAll
    rw [← List.length_filter_eq_length_iff, h.length_eq, hAll.length_eq]
  · intro hPass
    rwa [List.filter_eq_self.mpr hPass] at h

end

namespace Tree

/-- The key of a member that is known without running it, with the name that it stands for. -/
inductive IsKey : Tree → String → Prop where
  | name {text : String} {span : Span} {children : List Tree} :
      IsKey (node (.name text) span children) text
  | string {value : String} {span : Span} {children : List Tree} :
      IsKey (node (.string value) span children) value
  | number {text : String} {span : Span} {children : List Tree} :
      IsKey (node (.number text) span children) (Script.numeralKey text)
  | bigint {text : String} {span : Span} {children : List Tree} :
      IsKey (node (.bigint text) span children) (Script.bigintKey text)
  | template {text : String} {span inner : Span} {children : List Tree} :
      IsKey (node .template span [node (.templateText (some text)) inner children]) text

/-- A member of an object type is a property, and a prop says all about it. -/
structure IsReadAs (source : String) (member : Tree) (prop : String × PropMeta) : Prop where
  property : ∃ isOptional, member.kind = .propertySignature isOptional ∧
    prop.2.isRequired = !isOptional
  key : ∃ key, member.children.head? = some key ∧ key.IsKey prop.1
  isBool : prop.2.isBool = true ↔ ∃ type, member.ascribedType? = some type ∧
    type.kind = .booleanType
  declaredType : prop.2.declaredType = member.ascribedType?.map fun type => type.span.text source
  isFromMacro : prop.2.isFromMacro = false
  defaultValue : prop.2.defaultValue = none
  validator : prop.2.validator = none
  range : prop.2.range = member.span

/-- Whether a member is a property with a plain name or a string as its key, which is not empty. -/
def isReadable (member : Tree) : Bool :=
  match member.kind, member.children.head? with
  | .propertySignature _, some (node (.name text) _ _) => text ≠ ""
  | .propertySignature _, some (node (.string value) _ _) => value ≠ ""
  | _, _ => false

/-- A member gives a prop if it is readable. -/
theorem isSome_signatureProp? (source : String) (member : Tree) :
    (member.signatureProp? source).isSome = member.isReadable := by
  obtain ⟨kind, span, children⟩ := member
  cases kind with
  | propertySignature isOptional =>
      rcases children with _ | ⟨⟨keyKind, keySpan, below⟩, rest⟩
      · rfl
      · cases keyKind with
        | name text =>
            by_cases hEmpty : text = "" <;>
              simp [signatureProp?, isReadable, propertySignatureName, kind, children, hEmpty]
        | string value =>
            by_cases hEmpty : value = "" <;>
              simp [signatureProp?, isReadable, propertySignatureName, kind, children, hEmpty]
        | _ => rfl
  | _ => rfl

/-- A property with a name has a key that spells it. -/
theorem exists_isKey {member : Tree} (h : member.propertySignatureName ≠ "") :
    ∃ key, member.children.head? = some key ∧ key.IsKey member.propertySignatureName := by
  unfold propertySignatureName at h ⊢
  split
  · rename_i hKey
    exact ⟨_, hKey, .name⟩
  · rename_i hKey
    exact ⟨_, hKey, .string⟩
  · simp_all

/-- A prop says all about the member that gives it. -/
theorem isReadAs_of_signatureProp? {source : String} {member : Tree} {prop : String × PropMeta}
    (h : member.signatureProp? source = some prop) : member.IsReadAs source prop := by
  unfold signatureProp? at h
  split at h
  · rename_i isOptional hKind
    obtain ⟨hSome, hProp⟩ := Option.ite_none_left_eq_some.mp h
    obtain rfl := Option.some.inj hProp
    exact
      { property := ⟨isOptional, hKind, rfl⟩
        key := exists_isKey hSome
        isBool := by simp [Option.any_eq_true]
        declaredType := rfl
        isFromMacro := rfl
        defaultValue := rfl
        validator := rfl
        range := rfl }
  · cases h

section

variable {f parameter : Tree} {source : String} (hParameter : f.parameters = [parameter])

include hParameter

/-- The only parameter gives props if it has a plain name and a literal as its type. -/
theorem formalProps_eq_ok_some_iff {formal : FormalProps} :
    formalProps f source = .ok (some formal) ↔
      ∃ name type, parameter.AscribesLiteral name type ∧
        formal = ⟨name, parameter.span, type.children.filterMap (signatureProp? source)⟩ := by
  constructor
  · intro h
    rcases formalProps_cases h with ⟨-, hNone⟩ | ⟨p, name, type, hSame, hAscribes, hFormal⟩
    · cases hNone
    · obtain rfl := List.singleton_inj.mp (hSame.symm.trans hParameter)
      exact ⟨name, type, hAscribes, Option.some.inj hFormal⟩
  · rintro ⟨name, ⟨kind, span, members⟩, ⟨hPattern, hType, rfl⟩, rfl⟩
    obtain ⟨ascription, hAscription, hHead⟩ := Option.bind_eq_some_iff.mp hType
    simp only [formalProps, hParameter, hPattern, hAscription, hHead]
    rfl

/-- A function with one parameter has props exactly if that has a plain name and an object type
literal, whatever members the literal has. Its readable members are read as the props, in order, so
they are read without loss exactly if all are readable. -/
theorem formalProps_lossless_iff :
    ((∃ formal, formalProps f source = .ok (some formal)) ↔
      ∃ name type, parameter.AscribesLiteral name type) ∧
    ∀ formal, formalProps f source = .ok (some formal) →
      ∃ type, parameter.AscribesLiteral formal.parameterName type ∧ formal.span = parameter.span ∧
        List.Forall₂ (IsReadAs source) (type.children.filter isReadable) formal.props ∧
        (List.Forall₂ (IsReadAs source) type.children formal.props ↔
          ∀ member ∈ type.children, member.isReadable = true) := by
  constructor
  · simp only [formalProps_eq_ok_some_iff hParameter]
    exact ⟨fun ⟨_, name, type, hLiteral, _⟩ => ⟨name, type, hLiteral⟩,
      fun ⟨name, type, hLiteral⟩ => ⟨_, name, type, hLiteral, rfl⟩⟩
  · intro formal hFormal
    obtain ⟨name, type, hLiteral, rfl⟩ := (formalProps_eq_ok_some_iff hParameter).mp hFormal
    have hRead : List.Forall₂ (IsReadAs source) (type.children.filter isReadable)
        (type.children.filterMap (signatureProp? source)) :=
      forall₂_filterMap _ (fun member _ => isSome_signatureProp? source member)
        fun member _ prop hProp => isReadAs_of_signatureProp? hProp
    exact ⟨type, hLiteral, rfl, hRead, forall₂_iff_of_filter hRead⟩

end

end Tree

theorem formalProps_lossless_twin :
    ∃ (formal : FormalProps) (type : Tree),
      formalProps twinStatement twinInput.source = .ok (some formal) ∧
      formal.props.map Prod.fst = ["a", "a"] ∧
      type.children.map Tree.kind = [.propertySignature false, .propertySignature false] ∧
      List.Forall₂ (Tree.IsReadAs twinInput.source) type.children formal.props := by
  have hTree : ∃ parameter type, twinStatement.parameters = [parameter] ∧
      parameter.ascribedType? = some type ∧
      type.children.map Tree.kind = [.propertySignature false, .propertySignature false] ∧
      ∀ member ∈ type.children, member.isReadable = true := ⟨_, _, rfl, rfl, rfl, by decide⟩
  have hProps : ∃ formal, formalProps twinStatement twinInput.source = .ok (some formal) ∧
      formal.props.map Prod.fst = ["a", "a"] := ⟨_, rfl, rfl⟩
  obtain ⟨parameter, type, hParameter, hType, hKinds, hReadable⟩ := hTree
  obtain ⟨formal, hFormal, hNames⟩ := hProps
  obtain ⟨type', hAscribes, -, -, hLossless⟩ :=
    (Tree.formalProps_lossless_iff hParameter).2 formal hFormal
  obtain rfl := Option.some.inj (hType.symm.trans hAscribes.ascribed)
  exact ⟨formal, type, hFormal, hNames, hKinds, hLossless.mpr hReadable⟩

/-- A component whose parameter has a property and a method. -/
def methodStatement : Tree :=
  .node (.function .declaration) ⟨0, 65⟩
    [.node (.binding "A") ⟨9, 10⟩ [],
      .node .parameters ⟨10, 43⟩
        [.node .parameter ⟨11, 42⟩
          [.node (.binding "props") ⟨11, 16⟩ [],
            .node .typeAscription ⟨16, 42⟩
              [.node .typeLiteral ⟨18, 42⟩
                [.node (.propertySignature false) ⟨20, 30⟩
                  [.node (.name "a") ⟨20, 21⟩ [],
                    .node .typeAscription ⟨21, 29⟩ [.node .otherType ⟨23, 29⟩ []]],
                  .node .methodSignature ⟨31, 40⟩
                    [.node (.name "b") ⟨31, 32⟩ [],
                      .node .parameters ⟨32, 34⟩ [],
                      .node .typeAscription ⟨34, 40⟩ [.node .otherType ⟨36, 40⟩ []]]]]]],
      .node .functionBody ⟨44, 65⟩
        [.node .returnStatement ⟨46, 63⟩
          [.node .taggedTemplate ⟨53, 63⟩
            [.node (.reference "vine") ⟨53, 57⟩ [],
              .node .template ⟨57, 63⟩ [.node (.templateText (some "<a/>")) ⟨58, 62⟩ []]]]]]

def methodSource : String :=
  "function A(props: \x7b a: string; b(): void \x7d) \x7b return vine`<a/>` \x7d\n"

/-- The method is no property, and the parameter is read as the other member alone. -/
theorem not_lossless_method :
    ∃ (parameter type : Tree) (formal : FormalProps), methodStatement.parameters = [parameter] ∧
      parameter.ascribedType? = some type ∧
      type.children.map Tree.kind = [.propertySignature false, .methodSignature] ∧
      formalProps methodStatement methodSource = .ok (some formal) ∧
      formal.props.map Prod.fst = ["a"] ∧
      ¬ List.Forall₂ (Tree.IsReadAs methodSource) type.children formal.props := by
  refine ⟨_, _, _, rfl, rfl, rfl, rfl, rfl, fun hAll => ?_⟩
  have hLength := hAll.length_eq
  exact absurd hLength (by decide)

end ComponentAnalysis
