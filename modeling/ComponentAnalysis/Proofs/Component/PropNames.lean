import ComponentAnalysis.Proofs.Component.PropVariables
import Mathlib.Data.Set.Pairwise.List

/-! When the names of a component's props differ. Nothing takes repeated names out of the list of
props, so they differ exactly if no two members of the parameter's type, or no two calls, declare
one name. Only then is the list a mapping from names. -/
namespace ComponentAnalysis

variable {Ast : Type}

section

variable {items : List Tree} {g : Tree → Option (String × PropMeta)}
  {declares : String → Tree → Prop}
  (hDeclares : ∀ name n, declares name n ↔ n ∈ items ∧ ∃ prop, g n = some (name, prop))

include hDeclares

/-- The names in a list are those that its items declare. -/
theorem exists_mem_filterMap_iff {name : String} :
    (∃ prop, (name, prop) ∈ items.filterMap g) ↔ ∃ n, declares name n := by
  simp only [hDeclares, List.mem_filterMap]
  constructor
  · rintro ⟨prop, n, hn, hProp⟩
    exact ⟨n, hn, prop, hProp⟩
  · rintro ⟨n, hn, prop, hProp⟩
    exact ⟨prop, n, hn, hProp⟩

/-- Nodes that differ give props whose names differ exactly if no two of them declare one name. -/
theorem nodup_names_iff (hItems : items.Nodup) :
    ((items.filterMap g).map Prod.fst).Nodup ↔
      ∀ name m n, declares name m → declares name n → m = n := by
  have hSymm : Std.Symm fun m n : Tree => ∀ name, declares name m → ¬ declares name n :=
    ⟨fun _ _ h name hn hm => h name hm hn⟩
  have hName : ∀ n ∈ items, ∀ name, (g n).map Prod.fst = some name ↔ declares name n := by
    intro n hn name
    simp [hDeclares, hn]
  have hNames : ((items.filterMap g).map Prod.fst).Nodup ↔
      items.Pairwise fun m n => ∀ name, declares name m → ¬ declares name n := by
    rw [List.map_filterMap, List.nodup_iff_pairwise_ne, List.pairwise_filterMap]
    apply List.Pairwise.iff_of_mem
    intro m n hm hn
    simp only [hName m hm, hName n hn]
    constructor
    · exact fun h name hm hn => h name hm name hn rfl
    · rintro h name hm _ hn rfl
      exact h name hm hn
  rw [hNames, ← hItems.pairwise_coe]
  constructor
  · intro hApart name m n hm hn
    by_contra hNe
    exact hApart ((hDeclares name m).mp hm).1 ((hDeclares name n).mp hn).1 hNe name hm hn
  · intro hUnique m _ n _ hNe name hm hn
    exact hNe (hUnique name m n hm hn)

end

/-- In a list without a repeated name the lookup of a name finds its only entry. -/
theorem lookup_eq_some_iff_mem {props : List (String × PropMeta)}
    (hNames : (props.map Prod.fst).Nodup) (name : String) (prop : PropMeta) :
    props.lookup name = some prop ↔ (name, prop) ∈ props := by
  rw [List.lookup_eq_some_iff]
  constructor
  · rintro ⟨before, after, rfl, -⟩
    exact List.mem_append_right before List.mem_cons_self
  · intro h
    obtain ⟨before, after, rfl⟩ := List.append_of_mem h
    refine ⟨before, after, rfl, fun e he => ?_⟩
    rw [List.map_append, List.nodup_append] at hNames
    exact bne_iff_ne.mpr (hNames.2.2 e.1 (List.mem_map_of_mem he) name List.mem_cons_self).symm

namespace Tree

/-- A node declares a prop of a function: a property in the type of its only parameter, or, in a
function without parameters, a call whose value a variable takes. -/
inductive DeclaresProp (f : Tree) (name : String) : Tree → Prop where
  | property {parameter type member : Tree} {isOptional : Bool}
      (hParameter : f.parameters = [parameter]) (hType : parameter.ascribedType? = some type)
      (hLiteral : type.kind = .typeLiteral) (hMember : member ∈ type.children)
      (hKind : member.kind = .propertySignature isOptional)
      (hName : member.propertySignatureName = name) (hSome : name ≠ "") :
      DeclaresProp f name member
  | call {d call : Tree} {callee : MacroName} (hNone : f.parameters = [])
      (hVariable : d ∈ f.preorder) (h : d.HoldsProp name call callee) : DeclaresProp f name call

end Tree

/-- The names of a component's props are those that nodes of its function declare. They differ
exactly if no two nodes declare one name, and the lookup of a name finds its only prop then. -/
structure NamesProps (f : Tree) (component : Component Ast) : Prop where
  mem_iff : ∀ name, (∃ prop, (name, prop) ∈ component.props) ↔ ∃ n, f.DeclaresProp name n
  nodup_iff : (component.props.map Prod.fst).Nodup ↔
    ∀ name m n, f.DeclaresProp name m → f.DeclaresProp name n → m = n
  prop?_iff : (component.props.map Prod.fst).Nodup →
    ∀ name prop, component.prop? name = some prop ↔ (name, prop) ∈ component.props

/-- The names of a component's props are those that its declaration has. -/
def HasNamedProps (declaration : ComponentDeclaration) (component : Component Ast) : Prop :=
  ∃ f, declaration.function = some f ∧ NamesProps f component

/-- Props that are read off different items, one from each, have the names that the items declare.
-/
theorem NamesProps.of_filterMap {f : Tree} {component : Component Ast} {items : List Tree}
    {g : Tree → Option (String × PropMeta)} (hProps : component.props = items.filterMap g)
    (hItems : items.Nodup)
    (hDeclares : ∀ name n, f.DeclaresProp name n ↔ n ∈ items ∧ ∃ prop, g n = some (name, prop)) :
    NamesProps f component where
  mem_iff _ := by rw [hProps, exists_mem_filterMap_iff hDeclares]
  nodup_iff := by rw [hProps, nodup_names_iff hDeclares hItems]
  prop?_iff := lookup_eq_some_iff_mem

namespace Tree

section

variable {f : Tree} {source : String} (hParsed : f.Parsed)

include hParsed

/-- Without parameters the calls below a function declare its props. -/
theorem declaresProp_iff_of_parameters_nil (hNone : f.parameters = []) (name : String) (n : Tree) :
    f.DeclaresProp name n ↔ n ∈ f.calls ∧ ∃ prop, f.propOf? source n = some (name, prop) := by
  constructor
  · intro h
    cases h with
    | property hParameter => exact absurd (hNone.symm.trans hParameter) (List.cons_ne_nil _ _).symm
    | call _ hVariable h =>
        have hCall := h.mem_calls hVariable
        exact ⟨hCall, _, (propOf?_eq_some_iff hParsed hCall).mpr ⟨_, hVariable, _, h, rfl⟩⟩
  · rintro ⟨hCall, prop, hProp⟩
    obtain ⟨d, hd, callee, h, -⟩ := (propOf?_eq_some_iff hParsed hCall).mp hProp
    exact DeclaresProp.call hNone hd h

end

/-- A member gives a prop if it is a property with a readable key. -/
theorem exists_signatureProp?_iff {source name : String} {member : Tree} :
    (∃ prop, member.signatureProp? source = some (name, prop)) ↔
      ∃ isOptional, member.kind = .propertySignature isOptional ∧
        member.propertySignatureName = name ∧ name ≠ "" := by
  unfold signatureProp?
  split
  · rename_i isOptional hKind
    by_cases hEmpty : member.propertySignatureName = ""
    · simp only [if_pos hEmpty]
      constructor
      · rintro ⟨prop, h⟩
        cases h
      · rintro ⟨_, -, rfl, hSome⟩
        exact absurd hEmpty hSome
    · simp only [if_neg hEmpty]
      constructor
      · rintro ⟨prop, h⟩
        cases h
        exact ⟨isOptional, hKind, rfl, hEmpty⟩
      · rintro ⟨_, -, rfl, -⟩
        exact ⟨_, rfl⟩
  · rename_i hOther
    constructor
    · rintro ⟨prop, h⟩
      cases h
    · rintro ⟨isOptional, hKind, -⟩
      exact absurd hKind (hOther isOptional)

/-- The members of a type that give props. -/
def propMembers (type : Tree) (source : String) : List Tree :=
  type.children.filter fun member => (member.signatureProp? source).isSome

/-- Members that give no props make no difference. -/
theorem filterMap_propMembers (type : Tree) (source : String) :
    (type.propMembers source).filterMap (signatureProp? source) =
      type.children.filterMap (signatureProp? source) := by
  rw [propMembers, List.filterMap_filter]
  apply List.filterMap_congr
  intro member _
  cases member.signatureProp? source <;> rfl

/-- The members of an object type stand one behind the other, and none is empty. -/
theorem WellPlaced.nodup_propMembers {type : Tree} {source : String} (h : type.WellPlaced)
    (hLiteral : type.kind = .typeLiteral) : (type.propMembers source).Nodup := by
  have hApart := (h.placed.apart (by rw [hLiteral]; rfl)).filter
    fun member => (member.signatureProp? source).isSome
  rw [List.nodup_iff_pairwise_ne]
  refine hApart.imp_of_mem ?_
  rintro member _ hMember - hBefore rfl
  obtain ⟨hChild, hSome⟩ := List.mem_filter.mp hMember
  obtain ⟨⟨name, prop⟩, hProp⟩ := Option.isSome_iff_exists.mp hSome
  obtain ⟨isOptional, hKind, -⟩ := exists_signatureProp?_iff.mp ⟨prop, hProp⟩
  have hCovers := (h.of_child hChild).placed.covers (by rw [hKind]; rfl)
  exact Nat.lt_irrefl _ (Nat.lt_of_lt_of_le hCovers hBefore)

/-- With a parameter the members of its type declare the props. -/
theorem declaresProp_iff_of_parameters_singleton {f parameter type : Tree} {source : String}
    (hParameter : f.parameters = [parameter]) (hType : parameter.ascribedType? = some type)
    (hLiteral : type.kind = .typeLiteral) (name : String) (n : Tree) :
    f.DeclaresProp name n ↔
      n ∈ type.propMembers source ∧ ∃ prop, n.signatureProp? source = some (name, prop) := by
  constructor
  · intro h
    cases h with
    | property hParameter' hType' _ hMember hKind hName hSome =>
        obtain rfl := List.singleton_inj.mp (hParameter.symm.trans hParameter')
        obtain rfl := Option.some.inj (hType.symm.trans hType')
        obtain ⟨prop, hProp⟩ := exists_signatureProp?_iff.mpr ⟨_, hKind, hName, hSome⟩
        exact ⟨List.mem_filter.mpr ⟨hMember, by rw [hProp, Option.isSome_some]⟩, prop, hProp⟩
    | call hNone => exact absurd (hNone.symm.trans hParameter) (List.cons_ne_nil _ _).symm
  · rintro ⟨hMember, hProp⟩
    obtain ⟨isOptional, hKind, hName, hSome⟩ := exists_signatureProp?_iff.mp hProp
    exact DeclaresProp.property hParameter hType hLiteral (List.mem_of_mem_filter hMember) hKind
      hName hSome

/-- A parameter has a plain name and an object type literal as its type. -/
structure AscribesLiteral (parameter : Tree) (name : String) (type : Tree) : Prop where
  pattern : parameter.parameterPattern?.bind bindingName? = some name
  ascribed : parameter.ascribedType? = some type
  literal : type.kind = .typeLiteral

/-- A function that is accepted has no parameter, or a single one with a literal as its type. -/
theorem formalProps_cases {f : Tree} {source : String} {formal : Option FormalProps}
    (h : formalProps f source = .ok formal) :
    (f.parameters = [] ∧ formal = none) ∨
      ∃ parameter name type, f.parameters = [parameter] ∧ parameter.AscribesLiteral name type ∧
        formal = some ⟨name, parameter.span, type.children.filterMap (signatureProp? source)⟩ := by
  unfold formalProps at h
  split at h
  · rename_i hNone
    exact Or.inl ⟨hNone, (Except.ok.inj h).symm⟩
  · cases h
  · rename_i parameter hParameter
    split at h
    · cases h
    · rename_i name hName
      split at h
      · cases h
      · rename_i ascription hAscription
        split at h
        · rename_i span members hType
          refine Or.inr ⟨parameter, name, .node .typeLiteral span members, hParameter,
            ⟨hName, ?_, rfl⟩, (Except.ok.inj h).symm⟩
          rw [ascribedType?, hAscription, Option.bind_some, hType]
        · cases h

theorem ascribedType?_mem_preorder {t type : Tree} (h : t.ascribedType? = some type) :
    type ∈ t.preorder := by
  obtain ⟨ascription, hAscription, hType⟩ := Option.bind_eq_some_iff.mp h
  exact mem_preorder_of_child (mem_children_of_child? hAscription)
    (mem_preorder_of_mem_children (List.mem_of_head? hType))

end Tree

namespace AnalysisInput

variable {input : AnalysisInput Ast} {fileId : String} {declaration : ComponentDeclaration}
  {f : Tree}

/-- The component of a declaration whose parameter can be read has the props of its parameter or of
its calls. -/
theorem exists_namesProps (hParsed : ScriptParsed input.program)
    (hMem : declaration ∈ componentsOf input.program) (hFunction : declaration.function = some f)
    {formal : Option FormalProps} (hFormal : formalProps f input.source = .ok formal) :
    ∃ c, input.componentOf? fileId declaration = some c ∧ NamesProps f c := by
  obtain ⟨c, hComponent, hProps, -⟩ := exists_componentOf? hFunction
  refine ⟨c, hComponent, ?_⟩
  have hParsedF := hParsed.parsed_function hMem hFunction
  have hProps : c.props =
      (formal.map FormalProps.props).getD (macroProps f.macroSites input.source) := by
    rw [hProps, ← sites_of_mem_componentsOf hMem hFunction]
    simp only [AnalysisInput.component, hFormal]
  rcases Tree.formalProps_cases hFormal with
    ⟨hNone, rfl⟩ | ⟨parameter, name, type, hParameter, hAscribes, rfl⟩
  · rw [Option.map_none, Option.getD_none, Tree.macroProps_macroSites] at hProps
    exact NamesProps.of_filterMap hProps hParsedF.callsApart.nodup
      (Tree.declaresProp_iff_of_parameters_nil hParsedF hNone)
  · obtain ⟨list, hList, -, hIn⟩ := Tree.exists_parameterList_of_mem
      (hParameter ▸ List.mem_cons_self : parameter ∈ f.parameters)
    have hWell : type.WellPlaced := hParsedF.wellPlaced.of_mem (Tree.mem_preorder_trans
      (Tree.ascribedType?_mem_preorder hAscribes.ascribed) (Tree.mem_preorder_trans hIn hList))
    rw [Option.map_some, Option.getD_some, ← Tree.filterMap_propMembers] at hProps
    exact NamesProps.of_filterMap hProps (hWell.nodup_propMembers hAscribes.literal)
      (Tree.declaresProp_iff_of_parameters_singleton hParameter hAscribes.ascribed
        hAscribes.literal)

/-- When a file passes validation, the names of a component's props differ exactly if no two nodes
declare one; validation itself does not see to it. -/
theorem analyze_hasNamedProps (hParsed : ScriptParsed input.program) (file : FileAnalysis Ast)
    (diagnostics : List Diagnostic)
    (hPassed : (validate input.program (componentsOf input.program) input.imports.reactivity
      ⟨file.fileId, input.source, diagnostics⟩).1.passed = true) :
    ∃ added, (input.analyze file (componentsOf input.program)).components =
        file.components ++ added ∧
      List.Forall₂ HasNamedProps (componentsOf input.program) added := by
  obtain ⟨-, hNoError⟩ := passed_iff.mp hPassed
  apply input.exists_forall₂_analyze
  intro declaration hMem
  obtain ⟨f, hFunction⟩ := exists_function_of_no_error (hNoError declaration hMem)
  obtain ⟨formal, hFormal⟩ := exists_formalProps_of_no_error (hNoError declaration hMem) hFunction
  obtain ⟨c, hComponent, hNames⟩ := exists_namesProps hParsed hMem hFunction hFormal
  exact ⟨c, hComponent, f, hFunction, hNames⟩

end AnalysisInput

/-- A component with one prop. -/
theorem analyze_hasNamedProps_card :
    ∃ added, (cardInput.analyze cardFile (componentsOf [cardStatement])).components = added ∧
      List.Forall₂ HasNamedProps (componentsOf [cardStatement]) added :=
  AnalysisInput.analyze_hasNamedProps (by decide +kernel) cardFile []
    (passed_iff.mpr ⟨by decide +kernel, by decide +kernel⟩)

/-- A component whose parameter has two properties of one name. -/
def twinStatement : Tree :=
  .node (.function .declaration) ⟨0, 65⟩
    [.node (.binding "A") ⟨9, 10⟩ [],
      .node .parameters ⟨10, 43⟩
        [.node .parameter ⟨11, 42⟩
          [.node (.binding "props") ⟨11, 16⟩ [],
            .node .typeAscription ⟨16, 42⟩
              [.node .typeLiteral ⟨18, 42⟩
                [.node (.propertySignature false) ⟨20, 30⟩
                  [.node (.name "a") ⟨20, 21⟩ [],
                    .node .typeAscription ⟨21, 29⟩ [.node .otherType ⟨23, 29⟩ []]],
                  .node (.propertySignature false) ⟨31, 40⟩
                    [.node (.name "a") ⟨31, 32⟩ [],
                      .node .typeAscription ⟨32, 40⟩ [.node .otherType ⟨34, 40⟩ []]]]]]],
      .node .functionBody ⟨44, 65⟩
        [.node .returnStatement ⟨46, 63⟩
          [.node .taggedTemplate ⟨53, 63⟩
            [.node (.reference "vine") ⟨53, 57⟩ [],
              .node .template ⟨57, 63⟩ [.node (.templateText (some "<a/>")) ⟨58, 62⟩ []]]]]]

def twinInput : AnalysisInput Unit where
  source := "function A(props: \x7b a: string; a: number \x7d) \x7b return vine`<a/>` \x7d\n"
  program := [twinStatement]
  imports := {}
  templates := .silent Unit
  options := {}

def twinFile : FileAnalysis Unit where
  fileId := "twin"
  source := twinInput.source

/-- A file passes validation although its component has two props of one name, of which the lookup
finds the first. -/
theorem not_nodup_twin :
    ScriptParsed [twinStatement] ∧
      (validate [twinStatement] (componentsOf [twinStatement]) {}
        ⟨"twin", twinInput.source, []⟩).1.passed = true ∧
      ∃ component string number,
        (twinInput.analyze twinFile (componentsOf [twinStatement])).components = [component] ∧
        component.props = [("a", string), ("a", number)] ∧ string ≠ number ∧
        component.prop? "a" = some string ∧ ¬ (component.props.map Prod.fst).Nodup :=
  ⟨by decide +kernel, passed_iff.mpr ⟨by decide +kernel, by decide +kernel⟩, _, _, _, rfl, rfl,
    by decide +kernel, rfl, by decide +kernel⟩

end ComponentAnalysis
