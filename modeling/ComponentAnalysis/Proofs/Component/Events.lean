import ComponentAnalysis.Proofs.Component.ParameterProps
import ComponentAnalysis.Proofs.Component.Registration
import ComponentAnalysis.Proofs.Macro.Resolution

/-! The events that a component emits, member by member of the object type literal that declares
them. The names of methods are read from all keys that are known without running them, those of
properties from plain names and strings only, so a property whose key is a number is left out. -/
namespace ComponentAnalysis

namespace Tree

/-- A member of an object type is a property signature. -/
def IsProperty (member : Tree) : Prop := ∃ isOptional, member.kind = .propertySignature isOptional

/-- The key of a method that has a name, with that name. Between brackets a regular expression or
`null` may stand. -/
inductive IsMethodKey : Tree → String → Prop where
  | known {key : Tree} {name : String} (h : key.IsKey name) : IsMethodKey key name
  | regex {text : String} {span : Span} {children : List Tree} :
      IsMethodKey (node (.regex text) span children) text
  | null {span : Span} {children : List Tree} : IsMethodKey (node .null span children) "null"

/-- A member of an object type literal declares an event: it is a property or a method, and its key
is known and not empty. -/
structure DeclaresEvent (member : Tree) (name : String) : Prop where
  signature : member.IsProperty ∨ member.kind = .methodSignature
  key : ∃ key, member.children.head? = some key ∧ key.IsKey name
  nonempty : name ≠ ""

/-- A member of an object type literal adds a name to the events. -/
inductive AddsEvent (member : Tree) (name : String) : Prop where
  | property {key : Tree} (hReadable : member.isReadable = true)
      (hHead : member.children.head? = some key) (hKey : key.IsKey name)
  | method {key : Tree} (hKind : member.kind = .methodSignature)
      (hHead : member.children.head? = some key) (hKey : key.IsMethodKey name) (hSome : name ≠ "")

/-- The events of an object type literal with a single member. -/
def eventNames (member : Tree) : List String :=
  (node .typeLiteral member.span [member]).literalMemberNames

/-- Events are read member by member. -/
theorem literalMemberNames_eq (t : Tree) :
    t.literalMemberNames = t.children.flatMap eventNames := by
  obtain ⟨kind, span, members⟩ := t
  unfold eventNames literalMemberNames
  simp only [children]
  induction members with
  | nil => rfl
  | cons member members ih =>
      rw [← List.singleton_append, List.filterMap_append, List.filter_append, ih]
      rfl

/-! What one member adds. -/

section

variable {member : Tree} {name : String}

/-- A property adds its name if that is not empty. -/
theorem eventNames_of_property (h : member.IsProperty) :
    member.eventNames = [member.propertySignatureName].filter fun name => name ≠ "" := by
  obtain ⟨isOptional, hKind⟩ := h
  simp only [eventNames, literalMemberNames, children, List.filterMap_cons, hKind,
    List.filterMap_nil]

/-- So does a method, whose name is read in its own way. -/
theorem eventNames_of_method (h : member.kind = .methodSignature) :
    member.eventNames = [member.methodSignatureName].filter fun name => name ≠ "" := by
  simp only [eventNames, literalMemberNames, children, List.filterMap_cons, h, List.filterMap_nil]

/-- Other members add nothing. -/
theorem eventNames_of_other (hProperty : ¬ member.IsProperty)
    (hMethod : member.kind ≠ .methodSignature) : member.eventNames = [] := by
  obtain ⟨kind, span, below⟩ := member
  cases kind with
  | propertySignature isOptional => exact absurd ⟨isOptional, rfl⟩ hProperty
  | methodSignature => exact absurd rfl hMethod
  | _ => rfl

theorem filter_nonempty_eq_singleton_iff {text : String} :
    ([text].filter fun name => name ≠ "") = [name] ↔ text = name ∧ name ≠ "" := by
  by_cases hEmpty : text = ""
  · simp [hEmpty, eq_comm]
  · simp only [List.filter_cons, hEmpty, decide_not, decide_false, Bool.not_false, if_true,
      List.filter_nil, List.singleton_inj]
    exact ⟨fun h => ⟨h, h ▸ hEmpty⟩, fun h => h.1⟩

theorem isProperty_of_isReadable (h : member.isReadable = true) : member.IsProperty := by
  obtain ⟨kind, span, below⟩ := member
  cases kind with
  | propertySignature isOptional => exact ⟨isOptional, rfl⟩
  | _ => cases h

/-- A known key stands for one name. -/
theorem IsKey.unique {key : Tree} {other : String} (h : key.IsKey name) (h' : key.IsKey other) :
    name = other := by
  cases h <;> cases h' <;> rfl

/-- A property is readable if its name is not empty. -/
theorem isReadable_iff (h : member.IsProperty) :
    member.isReadable = true ↔ member.propertySignatureName ≠ "" := by
  obtain ⟨kind, span, below⟩ := member
  obtain ⟨isOptional, rfl⟩ := h
  rcases below with _ | ⟨⟨keyKind, keySpan, inKey⟩, rest⟩
  · simp [isReadable, propertySignatureName, children]
  · cases keyKind <;> simp [isReadable, propertySignatureName, children, Tree.kind]

/-- A property adds the name of its key if the key is readable. -/
theorem eventNames_property_iff (h : member.IsProperty) :
    member.eventNames = [name] ↔ member.isReadable = true ∧
      ∃ key, member.children.head? = some key ∧ key.IsKey name := by
  rw [eventNames_of_property h, filter_nonempty_eq_singleton_iff, isReadable_iff h]
  constructor
  · rintro ⟨rfl, hSome⟩
    exact ⟨hSome, exists_isKey hSome⟩
  · rintro ⟨hReadable, key, hHead, hKey⟩
    obtain ⟨key', hHead', hKey'⟩ := exists_isKey hReadable
    obtain rfl := Option.some.inj (hHead.symm.trans hHead')
    obtain rfl := hKey.unique hKey'
    exact ⟨rfl, hReadable⟩

/-- The name of a method is the one that its key spells. -/
theorem methodSignatureName_of_isMethodKey {key : Tree} (hHead : member.children.head? = some key)
    (hKey : key.IsMethodKey name) : member.methodSignatureName = name := by
  unfold methodSignatureName
  rw [hHead]
  cases hKey with
  | known h => cases h <;> rfl
  | regex => rfl
  | null => rfl

/-- A method with a name has a key that spells it. -/
theorem exists_isMethodKey (h : member.methodSignatureName ≠ "") :
    ∃ key, member.children.head? = some key ∧ key.IsMethodKey member.methodSignatureName := by
  unfold methodSignatureName at h ⊢
  split at h
  case h_1 hHead => exact ⟨_, hHead, .known .name⟩
  case h_2 hHead => exact ⟨_, hHead, .known .string⟩
  case h_3 hHead => exact ⟨_, hHead, .known .number⟩
  case h_4 hHead => exact ⟨_, hHead, .known .bigint⟩
  case h_5 hHead => exact ⟨_, hHead, .regex⟩
  case h_6 hHead => exact ⟨_, hHead, .null⟩
  case h_7 value _ _ hHead =>
    cases value with
    | none => exact absurd rfl h
    | some text => exact ⟨_, hHead, .known .template⟩
  case h_8 => exact absurd rfl h

/-- A method adds the name of its key, whatever kind of key it has. -/
theorem eventNames_method_iff (h : member.kind = .methodSignature) :
    member.eventNames = [name] ↔ name ≠ "" ∧
      ∃ key, member.children.head? = some key ∧ key.IsMethodKey name := by
  rw [eventNames_of_method h, filter_nonempty_eq_singleton_iff]
  constructor
  · rintro ⟨rfl, hSome⟩
    exact ⟨hSome, exists_isMethodKey hSome⟩
  · rintro ⟨hSome, key, hHead, hKey⟩
    exact ⟨methodSignatureName_of_isMethodKey hHead hKey, hSome⟩

/-- The reader of a member agrees with what the member adds. -/
theorem eventNames_eq_singleton_iff : member.eventNames = [name] ↔ member.AddsEvent name := by
  constructor
  · intro hAdds
    by_cases hProperty : member.IsProperty
    · obtain ⟨hReadable, key, hHead, hKey⟩ := (eventNames_property_iff hProperty).mp hAdds
      exact .property hReadable hHead hKey
    · by_cases hMethod : member.kind = .methodSignature
      · obtain ⟨hSome, key, hHead, hKey⟩ := (eventNames_method_iff hMethod).mp hAdds
        exact .method hMethod hHead hKey hSome
      · rw [eventNames_of_other hProperty hMethod] at hAdds
        cases hAdds
  · intro hAdds
    cases hAdds with
    | property hReadable hHead hKey =>
        exact (eventNames_property_iff (isProperty_of_isReadable hReadable)).mpr
          ⟨hReadable, _, hHead, hKey⟩
    | method hKind hHead hKey hSome =>
        exact (eventNames_method_iff hKind).mpr ⟨hSome, _, hHead, hKey⟩

/-- A member adds one name at most. -/
theorem eventNames_cases (member : Tree) :
    member.eventNames = [] ∨ ∃ name, member.eventNames = [name] := by
  have hFilter : ∀ text : String, ([text].filter fun name => name ≠ "") = [] ∨
      ∃ name, ([text].filter fun name => name ≠ "") = [name] := fun text => by
    by_cases hEmpty : text = "" <;> simp [hEmpty]
  by_cases hProperty : member.IsProperty
  · rw [eventNames_of_property hProperty]
    exact hFilter _
  · by_cases hMethod : member.kind = .methodSignature
    · rw [eventNames_of_method hMethod]
      exact hFilter _
    · exact Or.inl (eventNames_of_other hProperty hMethod)

/-- A member without a name for an event is passed over. -/
theorem eventNames_eq_nil_iff : member.eventNames = [] ↔ ∀ name, ¬ member.AddsEvent name := by
  simp only [← eventNames_eq_singleton_iff]
  rcases member.eventNames_cases with hNone | ⟨name, hOne⟩
  · simp [hNone]
  · simp [hOne]

/-- A declared event is added by methods, and by properties with plain names and strings. -/
theorem DeclaresEvent.addsEvent_iff (h : member.DeclaresEvent name) :
    member.AddsEvent name ↔ member.kind = .methodSignature ∨ member.isReadable = true := by
  obtain ⟨-, ⟨key, hHead, hKey⟩, hSome⟩ := h
  constructor
  · intro hAdds
    cases hAdds with
    | property hReadable _ _ => exact Or.inr hReadable
    | method hKind _ _ _ => exact Or.inl hKind
  · rintro (hKind | hReadable)
    · exact .method hKind hHead (.known hKey) hSome
    · exact .property hReadable hHead hKey

end

/-- Events are those of the members of an object type literal, in order. A member that declares an
event adds it, unless it is a property whose key is neither a plain name nor a string. -/
structure ListsEvents (members : List Tree) (emits : List String) : Prop where
  inOrder : emits = members.flatMap eventNames
  adds : ∀ m ∈ members, ∀ name, m.eventNames = [name] ↔ m.AddsEvent name
  addsNothing : ∀ m ∈ members, m.eventNames = [] ↔ ∀ name, ¬ m.AddsEvent name
  declared : ∀ m ∈ members, ∀ name, m.DeclaresEvent name →
    (m.eventNames = [name] ↔ m.kind = .methodSignature ∨ m.isReadable = true)
  /-- A property and a method with keys for one name agree just if the property is readable. -/
  sameKey : ∀ p ∈ members, ∀ m ∈ members, ∀ name, p.IsProperty → m.kind = .methodSignature →
    p.DeclaresEvent name → m.DeclaresEvent name →
      (p.eventNames = m.eventNames ↔ p.isReadable = true)

/-- The reader lists the events of any literal, in order. -/
theorem listsEvents (t : Tree) : ListsEvents t.children t.literalMemberNames where
  inOrder := t.literalMemberNames_eq
  adds _ _ _ := eventNames_eq_singleton_iff
  addsNothing _ _ := eventNames_eq_nil_iff
  declared _ _ _ hDeclares := eventNames_eq_singleton_iff.trans hDeclares.addsEvent_iff
  sameKey p _ m _ name hProperty hMethod hDeclares hDeclares' := by
    have hNotMethod : p.kind ≠ .methodSignature := by
      obtain ⟨isOptional, hKind⟩ := hProperty
      rw [hKind]
      exact Kind.noConfusion
    have hAdded : m.eventNames = [name] :=
      eventNames_eq_singleton_iff.mpr (hDeclares'.addsEvent_iff.mpr (Or.inl hMethod))
    rw [hAdded, eventNames_eq_singleton_iff, hDeclares.addsEvent_iff, or_iff_right hNotMethod]

end Tree

/-- The events of a component are those of the object type literal that its call of `vineEmits` has
as its first type. Without a call there are none. -/
structure EmitsDeclared (f : Tree) (emits : List String) : Prop where
  called : ∀ call ∈ f.preorder, ∀ variant, call.CallsMacro ⟨.emits, variant⟩ →
    ∃ type rest, call.callTypes = type :: rest ∧ type.kind = .typeLiteral ∧
      Tree.ListsEvents type.children emits
  uncalled : (∀ call ∈ f.preorder, ∀ variant, ¬ call.CallsMacro ⟨.emits, variant⟩) → emits = []

/-- The sites of a family are those of the calls in the function that spell it. -/
theorem mem_sitesOf_macroSites_iff {f : Tree} {base : MacroBase} {site : MacroSite} :
    site ∈ sitesOf base f.macroSites ↔ ∃ call ∈ f.preorder, ∃ variant,
      call.CallsMacro ⟨base, variant⟩ ∧ MacroSite.ofCall f call ⟨base, variant⟩ = site := by
  simp only [sitesOf, Tree.macroSites, List.mem_filter, List.mem_filterMap, Option.map_eq_some_iff,
    decide_eq_true_eq]
  constructor
  · rintro ⟨⟨call, hMem, ⟨_, variant⟩, hName, rfl⟩, rfl⟩
    exact ⟨call, hMem, variant, Tree.macroName?_eq_some_iff.mp hName, rfl⟩
  · rintro ⟨call, hMem, variant, hCalls, rfl⟩
    exact ⟨⟨call, hMem, _, Tree.macroName?_eq_some_iff.mpr hCalls, rfl⟩, rfl⟩

/-- Members that are held for the only site are those of the type in its call. -/
theorem HoldsMembers.emitsDeclared {f : Tree} {emits : List String}
    (h : HoldsMembers f.macroSites emits) : EmitsDeclared f emits := by
  cases h with
  | absent hNone =>
      refine ⟨fun call hMem variant hCalls => ?_, fun _ => rfl⟩
      have hSite := mem_sitesOf_macroSites_iff.mpr ⟨call, hMem, variant, hCalls, rfl⟩
      rw [hNone] at hSite
      cases hSite
  | present site type members hOnly hType hMembers =>
      constructor
      · intro call hMem variant hCalls
        have hSite := mem_sitesOf_macroSites_iff.mpr ⟨call, hMem, variant, hCalls, rfl⟩
        rw [hOnly, List.mem_singleton] at hSite
        subst hSite
        obtain ⟨literal, hHead, rfl⟩ := Option.map_eq_some_iff.mp hType
        obtain ⟨hLiteral, hNames⟩ := Option.ite_none_right_eq_some.mp hMembers
        obtain ⟨rest, hTypes⟩ := List.head?_eq_some_iff.mp hHead
        obtain rfl := Option.some.inj hNames
        exact ⟨literal, rest, hTypes, hLiteral, literal.listsEvents⟩
      · intro hUncalled
        have hSite : site ∈ sitesOf .emits f.macroSites := hOnly ▸ List.mem_cons_self
        obtain ⟨call, hMem, variant, hCalls, -⟩ := mem_sitesOf_macroSites_iff.mp hSite
        exact absurd hCalls (hUncalled call hMem variant)

/-- When a file passes validation, the events of its components are those that the members of their
literals declare, in order, without those of properties whose keys are neither plain names nor
strings. -/
theorem AnalysisInput.analyze_emitsDeclared {Ast : Type} (input : AnalysisInput Ast)
    (file : FileAnalysis Ast) (diagnostics : List Diagnostic)
    (hPassed : (validate input.program (componentsOf input.program) input.imports.reactivity
      ⟨file.fileId, input.source, diagnostics⟩).1.passed = true) :
    ∃ added, (input.analyze file (componentsOf input.program)).components =
        file.components ++ added ∧
      List.Forall₂ (fun declaration component => ∃ f, declaration.function = some f ∧
        EmitsDeclared f component.emits) (componentsOf input.program) added := by
  obtain ⟨-, hNoError⟩ := passed_iff.mp hPassed
  obtain ⟨added, hAdded, hRetains⟩ :=
    input.retains_foldl { file with imports := input.imports } _ hNoError
  refine ⟨added, hAdded, ?_⟩
  have hAll := (List.forall₂_and_left _ _).mpr
    ⟨fun declaration (hMem : declaration ∈ componentsOf input.program) => hMem, hRetains⟩
  refine hAll.imp fun declaration component ⟨hMem, hRetained⟩ => ?_
  obtain ⟨f, hFunction, -⟩ := hRetained.props
  refine ⟨f, hFunction, HoldsMembers.emitsDeclared ?_⟩
  rw [← sites_of_mem_componentsOf hMem hFunction]
  exact hRetained.emits

/-- A component with one event. -/
theorem analyze_emitsDeclared_card :
    (cardInput.analyze cardFile (componentsOf [cardStatement])).components.map Component.emits =
        [["save"]] ∧
      ∃ added, (cardInput.analyze cardFile (componentsOf [cardStatement])).components = added ∧
        List.Forall₂ (fun declaration component => ∃ f, declaration.function = some f ∧
          EmitsDeclared f component.emits) (componentsOf [cardStatement]) added :=
  ⟨by decide +kernel, cardInput.analyze_emitsDeclared cardFile []
    (passed_iff.mpr ⟨by decide +kernel, by decide +kernel⟩)⟩

/-- The signature `1: []` of an event. -/
def numberedProperty : Tree :=
  .node (.propertySignature false) ⟨29, 35⟩
    [.node (.number "1") ⟨29, 30⟩ [],
      .node .typeAscription ⟨30, 34⟩ [.node .otherType ⟨32, 34⟩ []]]

/-- The signature `2(): void` of an event. -/
def numberedMethod : Tree :=
  .node .methodSignature ⟨36, 45⟩
    [.node (.number "2") ⟨36, 37⟩ [],
      .node .parameters ⟨37, 39⟩ [],
      .node .typeAscription ⟨39, 45⟩ [.node .otherType ⟨41, 45⟩ []]]

/-- A component whose events have numbers as their keys. -/
def numberedStatement : Tree :=
  .node (.function .declaration) ⟨0, 72⟩
    [.node (.binding "A") ⟨9, 10⟩ [],
      .node .parameters ⟨10, 12⟩ [],
      .node .functionBody ⟨13, 72⟩
        [.node .expressionStatement ⟨17, 50⟩
          [.node .call ⟨17, 50⟩
            [.node (.reference "vineEmits") ⟨17, 26⟩ [],
              .node .typeArguments ⟨26, 48⟩
                [.node .typeLiteral ⟨27, 47⟩ [numberedProperty, numberedMethod]]]],
          .node .returnStatement ⟨53, 70⟩
            [.node .taggedTemplate ⟨60, 70⟩
              [.node (.reference "vine") ⟨60, 64⟩ [],
                .node .template ⟨64, 70⟩
                  [.node (.templateText (some "<a/>")) ⟨65, 69⟩ []]]]]]

def numberedInput : AnalysisInput Unit where
  source := "function A() \x7b\n  vineEmits<\x7b 1: []; 2(): void \x7d>()\n" ++
    "  return vine`<a/>`\n\x7d\n"
  program := [numberedStatement]
  imports := {}
  templates := .silent Unit
  options := {}

def numberedFile : FileAnalysis Unit where
  fileId := "numbered"
  source := numberedInput.source

/-- The file passes, and the component emits the event of the method alone. -/
theorem not_emitted_numbered :
    (validate numberedInput.program (componentsOf numberedInput.program)
        numberedInput.imports.reactivity ⟨"numbered", numberedInput.source, []⟩).1.passed = true ∧
      numberedProperty.DeclaresEvent "1" ∧ numberedMethod.DeclaresEvent "2" ∧
      (numberedInput.analyze numberedFile (componentsOf [numberedStatement])).components.map
        Component.emits = [["2"]] := by
  have hOne : Script.numeralKey "1" = "1" := by decide +kernel
  have hTwo : Script.numeralKey "2" = "2" := by decide +kernel
  refine ⟨passed_iff.mpr ⟨by decide +kernel, by decide +kernel⟩, ?_, ?_, by decide +kernel⟩
  · exact ⟨Or.inl ⟨false, rfl⟩, ⟨_, rfl, hOne ▸ Tree.IsKey.number⟩, by decide⟩
  · exact ⟨Or.inr rfl, ⟨_, rfl, hTwo ▸ Tree.IsKey.number⟩, by decide⟩

end ComponentAnalysis
