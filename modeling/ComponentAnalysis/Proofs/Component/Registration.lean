import ComponentAnalysis.Proofs.Component.Completeness
import Mathlib.Data.List.Forall2

/-! What a run of the analysis adds to a file: a component for each declaration that has a function,
in order, and the style of the first declaration of each scope that has one. -/
namespace ComponentAnalysis

variable {Ast : Type}

/-- What stands at a place of a list is related to what stands there in a related one. -/
theorem exists_getElem?_of_forall₂ {α β : Type} {R : α → β → Prop} {as : List α} {bs : List β}
    (h : List.Forall₂ R as bs) {i : Nat} {a : α} (ha : as[i]? = some a) :
    ∃ b, bs[i]? = some b ∧ R a b := by
  obtain ⟨hBound, rfl⟩ := List.getElem?_eq_some_iff.mp ha
  have hBound' : i < bs.length := h.length_eq ▸ hBound
  exact ⟨bs[i], List.getElem?_eq_getElem hBound', h.get hBound hBound'⟩

/-- A list that is filtered in passing consists of the values of the items that pass. -/
theorem forall₂_filterMap {α β : Type} {R : α → β → Prop} {g : α → Option β} {p : α → Bool}
    (items : List α) (hSome : ∀ a ∈ items, (g a).isSome = p a)
    (hRel : ∀ a ∈ items, ∀ b, g a = some b → R a b) :
    List.Forall₂ R (items.filter p) (items.filterMap g) := by
  induction items with
  | nil => exact .nil
  | cons a items ih =>
      have hRest := ih (fun b hb => hSome b (List.mem_cons_of_mem a hb))
        fun b hb => hRel b (List.mem_cons_of_mem a hb)
      have hHead := hSome a List.mem_cons_self
      cases hValue : g a with
      | none =>
          rw [hValue, Option.isSome_none] at hHead
          rwa [List.filter_cons_of_neg (by simp [← hHead]), List.filterMap_cons_none hValue]
      | some b =>
          rw [hValue, Option.isSome_some] at hHead
          rw [List.filter_cons_of_pos hHead.symm, List.filterMap_cons_some hValue]
          exact .cons (hRel a List.mem_cons_self b hValue) hRest

/-- The style variables that a style takes from its component. Only scoped styles take any. -/
def StyleDefinition.variables (style : StyleDefinition) : Table String :=
  if style.isScoped then StyleVariables.bindings style.component style.source else .empty

/-- A style is of the component that it was read for. -/
theorem component_of_styleOf {source name : String} {sites : List MacroSite}
    {style : StyleDefinition} (h : styleOf source name sites = some style) :
    style.component = name := by
  simp only [styleOf, Option.bind_eq_bind, Option.bind_eq_some_iff, Option.pure_def,
    Option.some.injEq] at h
  obtain ⟨_, -, _, -, _, -, rfl⟩ := h
  rfl

namespace AnalysisInput

variable (input : AnalysisInput Ast) (file : FileAnalysis Ast) (fileId : String)
  (declaration : ComponentDeclaration)

/-- The style that a declaration brings to its file. Without a function it brings none. -/
def styleOf? : Option StyleDefinition :=
  declaration.function.bind fun _ => styleOf input.source declaration.name declaration.sites

section

variable {input declaration} {style : StyleDefinition}

theorem styleOf?_eq_some_iff :
    input.styleOf? declaration = some style ↔ declaration.function.isSome = true ∧
      styleOf input.source declaration.name declaration.sites = some style := by
  rw [styleOf?, Option.bind_eq_some_iff, Option.isSome_iff_exists, exists_and_right]

/-- So is the style that a declaration brings. -/
theorem component_of_styleOf? (h : input.styleOf? declaration = some style) :
    style.component = declaration.name :=
  component_of_styleOf (styleOf?_eq_some_iff.mp h).2

end

/-- The style that a declaration brings to a scope of its file. -/
def styleUnder? (scopeId : String) : Option StyleDefinition :=
  if Digest.scopeId fileId declaration.name = scopeId then input.styleOf? declaration else none

/-- The component that a declaration adds to its file. Without a function it adds none. -/
def componentOf? : Option (Component Ast) :=
  declaration.function.map fun f =>
    let component :=
      { input.component fileId declaration f with
        styleVariables := (input.styleOf? declaration).elim .empty StyleDefinition.variables }
    match declaration.markup with
    | some markup => (input.addTemplate component markup).1
    | none => component

/-- A component has the name and the scope of its declaration, the variables of its own style, and
the text of the template that its function returns. -/
structure ComesFrom (component : Component Ast) : Prop where
  function : declaration.function.isSome = true
  name : component.name = declaration.name
  scopeId : component.scopeId = Digest.scopeId fileId declaration.name
  styleVariables : component.styleVariables =
    (input.styleOf? declaration).elim .empty StyleDefinition.variables
  template : component.template = declaration.markup.map fun m => m.content.text input.source
  templateRange : component.templateRange = declaration.markup.map Markup.content

variable {input fileId declaration} in
/-- What is added for a declaration comes from it. -/
theorem comesFrom_of_componentOf? {component : Component Ast}
    (h : input.componentOf? fileId declaration = some component) :
    input.ComesFrom fileId declaration component := by
  obtain ⟨f, hFunction, rfl⟩ := Option.map_eq_some_iff.mp h
  have hSome : declaration.function.isSome = true := by rw [hFunction, Option.isSome_some]
  cases hMarkup : declaration.markup with
  | none => exact ⟨hSome, rfl, rfl, rfl, by rw [hMarkup]; rfl, by rw [hMarkup]; rfl⟩
  | some markup => exact ⟨hSome, rfl, rfl, rfl, by rw [hMarkup]; rfl, by rw [hMarkup]; rfl⟩

/-- Just the declarations with a function add a component. -/
theorem isSome_componentOf? :
    (input.componentOf? fileId declaration).isSome = declaration.function.isSome := by
  rw [componentOf?, Option.isSome_map]

variable {input fileId declaration} in
/-- Style and template change neither the props nor the bindings of a component. -/
theorem exists_componentOf? {f : Tree} (hFunction : declaration.function = some f) :
    ∃ c, input.componentOf? fileId declaration = some c ∧
      c.props = (input.component fileId declaration f).props ∧
      c.bindings = (input.component fileId declaration f).bindings := by
  refine ⟨_, Option.map_eq_some_iff.mpr ⟨f, hFunction, rfl⟩, ?_⟩
  cases declaration.markup <;> exact ⟨rfl, rfl⟩

variable {input fileId declaration} in
/-- A component is what its function declares, apart from its style variables and its template. -/
theorem eq_of_componentOf? {c : Component Ast}
    (h : input.componentOf? fileId declaration = some c) :
    ∃ f, declaration.function = some f ∧ ∃ styleVariables template templateRange templateAst,
      c = { input.component fileId declaration f with
        styleVariables, template, templateRange, templateAst } := by
  obtain ⟨f, hFunction, rfl⟩ := Option.map_eq_some_iff.mp h
  refine ⟨f, hFunction, ?_⟩
  cases declaration.markup <;> exact ⟨_, _, _, _, rfl⟩

/-- The components that several declarations add come from those that have a function, in order. -/
theorem forall₂_comesFrom (declarations : List ComponentDeclaration) :
    List.Forall₂ (input.ComesFrom fileId) (declarations.filter fun d => d.function.isSome)
      (declarations.filterMap (input.componentOf? fileId)) :=
  forall₂_filterMap declarations (fun d _ => input.isSome_componentOf? fileId d)
    fun _ _ _ hComponent => comesFrom_of_componentOf? hComponent

/-- Declarations without errors add a component each. -/
theorem forall₂_comesFrom_of_no_error {declarations : List ComponentDeclaration}
    {program : List Tree} {apis : Reactivity}
    (hNoError : ∀ d ∈ declarations, ∀ fault ∈ componentFaults program apis input.source d,
      fault.1.severity ≠ .error) :
    List.Forall₂ (input.ComesFrom fileId) declarations
      (declarations.filterMap (input.componentOf? fileId)) := by
  have hFunctions : ∀ d ∈ declarations, d.function.isSome = true :=
    fun d hd => Option.isSome_iff_exists.mpr (exists_function_of_no_error (hNoError d hd))
  have hAll := input.forall₂_comesFrom fileId declarations
  rwa [List.filter_eq_self.mpr hFunctions] at hAll

variable {input fileId} in
/-- Components that come from declarations have their names, in order. -/
theorem map_name_of_forall₂ {declarations : List ComponentDeclaration}
    {components : List (Component Ast)}
    (h : List.Forall₂ (input.ComesFrom fileId) declarations components) :
    components.map Component.name = declarations.map ComponentDeclaration.name := by
  induction h with
  | nil => rfl
  | cons hFrom _ ih => rw [List.map_cons, List.map_cons, hFrom.name, ih]

/-- A declaration adds its component behind those that are there. -/
theorem components_addComponent :
    (input.addComponent file declaration).components =
      file.components ++ (input.componentOf? file.fileId declaration).toList := by
  cases hFunction : declaration.function with
  | none => simp [addComponent, componentOf?, hFunction]
  | some f =>
      simp only [addComponent, componentOf?, styleOf?, hFunction, Option.bind_some, Option.map_some]
      cases hStyle : styleOf input.source declaration.name declaration.sites with
      | none => cases declaration.markup <;> rfl
      | some style =>
          have hName := component_of_styleOf hStyle
          by_cases hScoped : style.isScoped = true
          · simp only [Option.elim_some, StyleDefinition.variables, if_pos hScoped, hName]
            cases declaration.markup <;> rfl
          · simp only [Option.elim_some, StyleDefinition.variables, if_neg hScoped]
            cases declaration.markup <;> rfl

/-- The first style of a scope stays. -/
theorem find?_styles_addComponent_eq (scopeId : String) :
    (input.addComponent file declaration).styles.find? scopeId =
      (file.styles.find? scopeId).or (input.styleUnder? file.fileId declaration scopeId) := by
  cases hFunction : declaration.function with
  | none => simp [addComponent, styleUnder?, styleOf?, hFunction]
  | some f =>
      simp only [addComponent, styleUnder?, styleOf?, hFunction, Option.bind_some]
      cases hStyle : styleOf input.source declaration.name declaration.sites with
      | none => simp
      | some style =>
          have hScope : (input.component file.fileId declaration f).scopeId =
              Digest.scopeId file.fileId declaration.name := rfl
          simp only [apply_ite Component.scopeId, hScope, ite_self, Table.find?_insertIfAbsent]
          by_cases hOwn : Digest.scopeId file.fileId declaration.name = scopeId
          · rw [if_pos hOwn.symm, if_pos hOwn, hOwn]
            cases file.styles.find? scopeId <;> rfl
          · rw [if_neg (Ne.symm hOwn), if_neg hOwn, Option.or_none]

variable (declarations : List ComponentDeclaration)

/-- A run adds the components of the declarations that have a function, in order. -/
theorem components_foldl :
    (declarations.foldl input.addComponent file).components =
      file.components ++ declarations.filterMap (input.componentOf? file.fileId) := by
  induction declarations generalizing file with
  | nil => exact (List.append_nil _).symm
  | cons declaration declarations ih =>
      rw [List.foldl_cons, ih, components_addComponent, fileId_addComponent, List.append_assoc,
        List.filterMap_cons]
      cases input.componentOf? file.fileId declaration <;> rfl

/-- When each declaration adds a component that is related to it, the analysis adds related ones, in
order. -/
theorem exists_forall₂_analyze {R : ComponentDeclaration → Component Ast → Prop}
    (h : ∀ d ∈ declarations, ∃ c, input.componentOf? file.fileId d = some c ∧ R d c) :
    ∃ added, (input.analyze file declarations).components = file.components ++ added ∧
      List.Forall₂ R declarations added := by
  refine ⟨_, input.components_foldl { file with imports := input.imports } declarations, ?_⟩
  induction declarations with
  | nil => exact List.Forall₂.nil
  | cons declaration declarations ih =>
      obtain ⟨c, hComponent, hRelated⟩ := h declaration List.mem_cons_self
      rw [List.filterMap_cons_some hComponent]
      exact List.Forall₂.cons hRelated (ih fun d hd => h d (List.mem_cons_of_mem declaration hd))

/-- The style that a run leaves under a scope is the one that was there, or else the first that a
declaration of the scope brings. -/
theorem find?_styles_foldl_eq (scopeId : String) :
    (declarations.foldl input.addComponent file).styles.find? scopeId =
      (file.styles.find? scopeId).or
        (declarations.findSome? fun declaration =>
          input.styleUnder? file.fileId declaration scopeId) := by
  induction declarations generalizing file with
  | nil => exact Option.or_none.symm
  | cons declaration declarations ih =>
      rw [List.foldl_cons, ih, find?_styles_addComponent_eq, fileId_addComponent,
        Option.or_assoc, List.findSome?_cons]
      cases input.styleUnder? file.fileId declaration scopeId <;> rfl

variable {file}

section

variable (hEmpty : file.components = [])

include hEmpty

/-- In a file that had none before, the components are those that the declarations add. -/
theorem components_analyze :
    (input.analyze file declarations).components =
      declarations.filterMap (input.componentOf? file.fileId) := by
  rw [analyze, components_foldl, hEmpty, List.nil_append]

/-- The components of a file come from its declarations with a function, in order. -/
theorem forall₂_analyze :
    List.Forall₂ (input.ComesFrom file.fileId) (declarations.filter fun d => d.function.isSome)
      (input.analyze file declarations).components := by
  rw [input.components_analyze declarations hEmpty]
  exact input.forall₂_comesFrom file.fileId declarations

/-- No component comes out of nothing. -/
theorem exists_comesFrom_of_mem {c : Component Ast}
    (hc : c ∈ (input.analyze file declarations).components) :
    ∃ d ∈ declarations, input.ComesFrom file.fileId d c := by
  rw [input.components_analyze declarations hEmpty] at hc
  obtain ⟨d, hd, hComponent⟩ := List.mem_filterMap.mp hc
  exact ⟨d, hd, comesFrom_of_componentOf? hComponent⟩

end

/-- In a file that had none before, the style of a scope is the first that a declaration brings. -/
theorem find?_styles_analyze (hEmpty : file.styles = .empty) (scopeId : String) :
    (input.analyze file declarations).styles.find? scopeId =
      declarations.findSome? fun declaration =>
        input.styleUnder? file.fileId declaration scopeId := by
  rw [analyze, find?_styles_foldl_eq, hEmpty, Table.find?_empty, Option.none_or]

end AnalysisInput

end ComponentAnalysis
