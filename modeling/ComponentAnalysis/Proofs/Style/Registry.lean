import ComponentAnalysis.Proofs.Compiler.Analyzed
import ComponentAnalysis.Proofs.Component.Registration
import ComponentAnalysis.Proofs.Style.Order
import ComponentAnalysis.Proofs.Style.Scope

/-! The styles of a file, the components that own them and the texts that import them. Every scope
with a style has an owner, whatever names collide, and is imported exactly once. -/
namespace ComponentAnalysis

variable {Ast State : Type}

namespace FileAnalysis

/-- A style is registered under the scope of a component and has its name. -/
def Owns (file : FileAnalysis Ast) (component : Component Ast) (style : StyleDefinition) : Prop :=
  file.styles.find? component.scopeId = some style ∧ style.component = component.name

/-- Of a list of components, one owner is selected for each scope that is not yet seen. -/
structure Selects (file : FileAnalysis Ast) (seen : List String) (components : List (Component Ast))
    (owners : List (Component Ast × StyleDefinition)) : Prop where
  owns : ∀ o ∈ owners, file.Owns o.1 o.2
  sublist : (owners.map Prod.fst).Sublist components
  distinct : (owners.map fun o => o.1.scopeId).Nodup
  unseen : ∀ o ∈ owners, o.1.scopeId ∉ seen
  complete : ∀ c ∈ components, ∀ style, file.Owns c style → c.scopeId ∉ seen →
    ∃ o ∈ owners, o.1.scopeId = c.scopeId

variable {file : FileAnalysis Ast} {seen : List String} {component : Component Ast}
  {components : List (Component Ast)} {owners : List (Component Ast × StyleDefinition)}

/-- A component that owns no style, or only one of a scope already seen, is passed over. -/
theorem Selects.skip (h : file.Selects seen components owners)
    (hNot : ∀ style, file.Owns component style → component.scopeId ∈ seen) :
    file.Selects seen (component :: components) owners where
  owns := h.owns
  sublist := h.sublist.cons component
  distinct := h.distinct
  unseen := h.unseen
  complete := by
    intro c hc style hOwns hNew
    rcases List.mem_cons.mp hc with rfl | hc
    · exact absurd (hNot style hOwns) hNew
    · exact h.complete c hc style hOwns hNew

/-- The first owner of a scope is selected, and the scope is seen from then on. -/
theorem Selects.take {style : StyleDefinition} (hOwns : file.Owns component style)
    (hNew : component.scopeId ∉ seen)
    (h : file.Selects (component.scopeId :: seen) components owners) :
    file.Selects seen (component :: components) ((component, style) :: owners) where
  owns := List.forall_mem_cons.mpr ⟨hOwns, h.owns⟩
  sublist := h.sublist.cons_cons component
  distinct := by
    rw [List.map_cons, List.nodup_cons]
    refine ⟨?_, h.distinct⟩
    intro hMem
    obtain ⟨o, ho, hScope⟩ := List.mem_map.mp hMem
    exact h.unseen o ho (hScope ▸ List.mem_cons_self)
  unseen := by
    refine List.forall_mem_cons.mpr ⟨hNew, fun o ho hSeen => ?_⟩
    exact h.unseen o ho (List.mem_cons_of_mem _ hSeen)
  complete := by
    intro c hc other hOther hUnseen
    by_cases hScope : c.scopeId = component.scopeId
    · exact ⟨(component, style), List.mem_cons_self, hScope.symm⟩
    · rcases List.mem_cons.mp hc with rfl | hc
      · exact absurd rfl hScope
      · have hStill : c.scopeId ∉ component.scopeId :: seen := by simp [hScope, hUnseen]
        obtain ⟨o, ho, hSame⟩ := h.complete c hc other hOther hStill
        exact ⟨o, List.mem_cons_of_mem _ ho, hSame⟩

theorem selects_go (components : List (Component Ast)) :
    file.Selects seen components (styledComponents.go file seen components) := by
  induction components generalizing seen with
  | nil =>
      exact ⟨by simp [styledComponents.go], List.Sublist.refl _, List.nodup_nil,
        by simp [styledComponents.go], by simp⟩
  | cons component rest ih =>
      rw [styledComponents.go]
      cases hStyle : file.styles.find? component.scopeId with
      | none => exact ih.skip fun style hOwns => absurd (hStyle.symm.trans hOwns.1) (by simp)
      | some style =>
          by_cases hSkip : style.component ≠ component.name ∨ component.scopeId ∈ seen
          · simp only [if_pos hSkip]
            refine ih.skip fun other hOwns => hSkip.resolve_left fun hName => hName ?_
            rw [Option.some.inj (hStyle.symm.trans hOwns.1), hOwns.2]
          · simp only [if_neg hSkip]
            obtain ⟨hName, hNew⟩ := not_or.mp hSkip
            exact Selects.take ⟨hStyle, not_not.mp hName⟩ hNew ih

/-- Every registered style has the name of a component of its scope. -/
def HasOwners (file : FileAnalysis Ast) : Prop :=
  ∀ scopeId style, file.styles.find? scopeId = some style →
    ∃ c ∈ file.components, c.scopeId = scopeId ∧ c.name = style.component

/-- The scopes of a file with their styles, the components that own them and the texts that import
them agree. -/
structure StyleRegistry (file : FileAnalysis Ast) : Prop where
  /-- Every registered style has an owner. -/
  owner : ∀ scopeId style, file.styles.find? scopeId = some style →
    ∃ c ∈ file.components, file.styleOwner? scopeId = some c ∧ c.scopeId = scopeId ∧
      c.name = style.component
  /-- The imports are those of the styled components. Each says, so that it can be read, what the
  style of its scope is. -/
  imports : List.Forall₂ (fun text o =>
    (ImportedStyle.ofStyle file.fileId o.1.scopeId o.2).IsToldBy text)
      file.styleImports file.styledComponents
  registered : ∀ o ∈ file.styledComponents, file.Owns o.1 o.2
  /-- Every scope with a style is imported once. -/
  scopes : (file.styledComponents.map fun o => o.1.scopeId).Perm file.styles.keys
  distinct : (file.styledComponents.map fun o => o.1.scopeId).Nodup
  /-- The styled components stand in the order of their use. -/
  order : ∃ positions : List Nat, positions.Sublist (Usage.order file.components) ∧
    positions.map (fun i => file.components[i]?) = file.styledComponents.map fun o => some o.1

theorem hasOwners_of_empty (h : file.styles = .empty) : file.HasOwners := by
  intro scopeId style hStyle
  rw [h, Table.find?_empty] at hStyle
  cases hStyle

theorem selects_styledComponents (file : FileAnalysis Ast) :
    file.Selects [] ((Usage.order file.components).filterMap fun i => file.components[i]?)
      file.styledComponents :=
  selects_go _

theorem mem_filterMap_order {c : Component Ast} (h : c ∈ components) :
    c ∈ (Usage.order components).filterMap fun i => components[i]? := by
  obtain ⟨i, hAt⟩ := List.mem_iff_getElem?.mp h
  have hBound := (List.getElem?_eq_some_iff.mp hAt).1
  exact List.mem_filterMap.mpr ⟨i, Usage.mem_order.mpr hBound, hAt⟩

/-- The places of a part of the components that stand in the order of use. -/
theorem exists_positions {part : List (Component Ast)}
    (h : part.Sublist ((Usage.order components).filterMap fun i => components[i]?)) :
    ∃ positions : List Nat, positions.Sublist (Usage.order components) ∧
      positions.map (fun i => components[i]?) = part.map some := by
  obtain ⟨positions, hOrder, rfl⟩ := List.sublist_filterMap_iff.mp h
  refine ⟨positions, hOrder, ?_⟩
  have hPlaced : ∀ i ∈ positions, ∃ c, components[i]? = some c := by
    intro i hi
    have hBound := Usage.mem_order.mp (hOrder.subset hi)
    exact ⟨components[i], List.getElem?_eq_getElem hBound⟩
  clear hOrder h
  induction positions with
  | nil => rfl
  | cons i positions ih =>
      obtain ⟨c, hAt⟩ := hPlaced i List.mem_cons_self
      rw [List.map_cons, ih fun j hj => hPlaced j (List.mem_cons_of_mem i hj),
        List.filterMap_cons_some hAt, List.map_cons, hAt]

theorem HasOwners.styleOwner? (h : file.HasOwners) {scopeId : String} {style : StyleDefinition}
    (hStyle : file.styles.find? scopeId = some style) :
    ∃ c ∈ file.components, file.styleOwner? scopeId = some c ∧ c.scopeId = scopeId ∧
      c.name = style.component := by
  obtain ⟨c, hc, hScope, hName⟩ := h scopeId style hStyle
  have hFound : (file.components.find? fun c =>
      c.scopeId = scopeId ∧ c.name = style.component).isSome = true :=
    List.find?_isSome.mpr ⟨c, hc, by simpa using ⟨hScope, hName⟩⟩
  obtain ⟨owner, hOwner⟩ := Option.isSome_iff_exists.mp hFound
  have hBoth := List.find?_some hOwner
  simp only [decide_eq_true_eq] at hBoth
  refine ⟨owner, List.mem_of_find?_eq_some hOwner, ?_, hBoth.1, hBoth.2⟩
  rw [FileAnalysis.styleOwner?, hStyle, Option.bind_some, hOwner]

/-- If every registered style has an owner, exactly the scopes with a style are imported. -/
theorem HasOwners.scopes_perm (h : file.HasOwners) :
    (file.styledComponents.map fun o => o.1.scopeId).Perm file.styles.keys := by
  have hSelects := file.selects_styledComponents
  apply (List.perm_ext_iff_of_nodup hSelects.distinct file.styles.distinct).mpr
  intro scopeId
  rw [← Table.keys, Table.mem_keys_iff, List.mem_map]
  constructor
  · rintro ⟨o, ho, rfl⟩
    exact ⟨o.2, (hSelects.owns o ho).1⟩
  · rintro ⟨style, hStyle⟩
    obtain ⟨c, hc, rfl, hName⟩ := h scopeId style hStyle
    exact hSelects.complete c (mem_filterMap_order hc) style ⟨hStyle, hName.symm⟩ List.not_mem_nil

/-- The imports are the texts that say what the styles of the styled components are. -/
theorem styleImports_eq (file : FileAnalysis Ast) :
    file.styleImports = file.styledComponents.map fun o =>
      (ImportedStyle.ofStyle file.fileId o.1.scopeId o.2).text := by
  apply List.map_congr_left
  rintro ⟨component, style⟩ ho
  have hName := (file.selects_styledComponents.owns (component, style) ho).2
  show styleImport file.fileId component.scopeId component.name style = _
  rw [← ImportedStyle.styleImport_eq, hName]

/-- A styled component is a component of the file. -/
theorem mem_components_of_mem_styledComponents {o : Component Ast × StyleDefinition}
    (ho : o ∈ file.styledComponents) : o.1 ∈ file.components := by
  have hMem := file.selects_styledComponents.sublist.subset (List.mem_map_of_mem ho)
  obtain ⟨i, -, hAt⟩ := List.mem_filterMap.mp hMem
  exact List.mem_of_getElem? hAt

/-- If every style has an owner and scopes have no ampersand, the styles of a file agree. -/
theorem HasOwners.styleRegistry (h : file.HasOwners)
    (hScopes : ∀ c ∈ file.components, '&' ∉ c.scopeId.toList) : file.StyleRegistry where
  owner := fun _ _ => h.styleOwner?
  imports := by
    rw [styleImports_eq, List.forall₂_map_left_iff, List.forall₂_same]
    intro o ho
    exact ImportedStyle.isToldBy_text (hScopes _ (mem_components_of_mem_styledComponents ho))
  registered := file.selects_styledComponents.owns
  scopes := h.scopes_perm
  distinct := file.selects_styledComponents.distinct
  order := by
    obtain ⟨positions, hOrder, hPlaces⟩ := exists_positions file.selects_styledComponents.sublist
    exact ⟨positions, hOrder, by rw [hPlaces, List.map_map]; rfl⟩

end FileAnalysis

namespace AnalysisInput

variable (input : AnalysisInput Ast) {file : FileAnalysis Ast}

/-- A component that registers a style is an owner of it. -/
theorem hasOwners_addComponent (h : file.HasOwners) (declaration : ComponentDeclaration) :
    (input.addComponent file declaration).HasOwners := by
  intro scopeId style hStyle
  rw [find?_styles_addComponent_eq] at hStyle
  rw [components_addComponent]
  rcases Option.or_eq_some_iff.mp hStyle with hOld | ⟨-, hBrought⟩
  · obtain ⟨c, hc, hOwner⟩ := h scopeId style hOld
    exact ⟨c, List.mem_append_left _ hc, hOwner⟩
  · obtain ⟨hScope, hStyle⟩ := Option.ite_none_right_eq_some.mp hBrought
    have hSome := input.isSome_componentOf? file.fileId declaration
    rw [(styleOf?_eq_some_iff.mp hStyle).1, Option.isSome_iff_exists] at hSome
    obtain ⟨c, hc⟩ := hSome
    have hFrom := comesFrom_of_componentOf? hc
    refine ⟨c, ?_, hFrom.scopeId.trans hScope, ?_⟩
    · rw [hc]
      exact List.mem_append_right _ List.mem_cons_self
    · rw [hFrom.name, component_of_styleOf? hStyle]

theorem hasOwners_foldl (h : file.HasOwners) (declarations : List ComponentDeclaration) :
    (declarations.foldl input.addComponent file).HasOwners := by
  induction declarations generalizing file with
  | nil => exact h
  | cons declaration declarations ih => exact ih (input.hasOwners_addComponent h declaration)

/-- The scopes of components are digests, so they have no ampersand. -/
theorem ampersand_notMem_of_mem_analyze (hEmpty : file.components = [])
    {declarations : List ComponentDeclaration} {c : Component Ast}
    (hc : c ∈ (input.analyze file declarations).components) : '&' ∉ c.scopeId.toList := by
  obtain ⟨d, -, hFrom⟩ := input.exists_comesFrom_of_mem declarations hEmpty hc
  rw [hFrom.scopeId]
  exact Digest.ampersand_notMem_scopeId _ _

/-- The analysis of any components leaves the styles of a file in agreement. -/
theorem styleRegistry_analyze (hEmpty : file.components = []) (hStyles : file.styles = .empty)
    (declarations : List ComponentDeclaration) :
    (input.analyze file declarations).StyleRegistry := by
  refine FileAnalysis.HasOwners.styleRegistry (input.hasOwners_foldl ?_ _)
    fun c => input.ampersand_notMem_of_mem_analyze hEmpty
  exact FileAnalysis.hasOwners_of_empty hStyles

end AnalysisInput

/-- When hooks only look on, the styles of a compiled file, their owners and their imports agree,
whatever names its components have. -/
theorem Compiler.styleRegistry_analyzeFile (compiler : Compiler Ast) (code fileId : String)
    {hooks : Hooks Ast State} (hObserves : hooks.Observes) (state : State) :
    (compiler.analyzeFile hooks state code fileId).1.StyleRegistry := by
  have hLeaves := compiler.leaves_analyzeFile code fileId hObserves state
  generalize (compiler.analyzeFile hooks state code fileId).1 = file at hLeaves
  cases hLeaves with
  | rejected hComponents hStyles =>
      refine (FileAnalysis.hasOwners_of_empty hStyles).styleRegistry fun c hc => ?_
      rw [hComponents] at hc
      cases hc
  | analyzed _ _ => exact AnalysisInput.styleRegistry_analyze _ rfl rfl _

/-- Two components with a style each. -/
def twoStyles (first second : String) : String :=
  "function " ++ first ++ "() \x7b\n  vineStyle('p\x7b\x7d')\n  return vine`<a/>`\n\x7d\n" ++
    "function " ++ second ++ "() \x7b\n  vineStyle('q\x7b\x7d')\n  return vine`<b/>`\n\x7d\n"

/-- Of two components whose names have one scope, the first owns its only style. -/
theorem Compiler.styleRegistry_sharedScope :
    watcher.Observes ∧ (watched (twoStyles "Aa" "BB")).styles.keys = ["2d22e0ca"] ∧
      ∃ c ∈ (watched (twoStyles "Aa" "BB")).components,
        (watched (twoStyles "Aa" "BB")).styleOwner? "2d22e0ca" = some c ∧ c.name = "Aa" := by
  have hObserves : watcher.Observes := fun _ _ _ => rfl
  obtain ⟨hKeys, hStyle⟩ : (watched (twoStyles "Aa" "BB")).styles.keys = ["2d22e0ca"] ∧
      ((watched (twoStyles "Aa" "BB")).styles.find? "2d22e0ca").map StyleDefinition.component =
        some "Aa" := by decide +kernel
  obtain ⟨style, hFound, hComponent⟩ := Option.map_eq_some_iff.mp hStyle
  have hRegistry :=
    Compiler.styleRegistry_analyzeFile scriptCompiler (twoStyles "Aa" "BB") "f" hObserves []
  obtain ⟨c, hc, hOwner, -, hName⟩ := hRegistry.owner "2d22e0ca" style hFound
  exact ⟨hObserves, hKeys, c, hc, hOwner, hName.trans hComponent⟩

end ComponentAnalysis
