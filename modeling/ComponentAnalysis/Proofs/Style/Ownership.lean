import ComponentAnalysis.Proofs.Style.Registry
import Mathlib.Data.List.Nodup

/-! Which components keep their style. Scopes are digests of names, so two names of a file can have
one scope. The style of the first component of a scope is registered and imported, and those of the
others are lost without a diagnostic. -/
namespace ComponentAnalysis

variable {Ast State : Type}

/-- What a search finds is found at a place before which it finds nothing. -/
theorem findSome?_eq_some_iff_getElem? {α β : Type} {f : α → Option β} {l : List α} {b : β} :
    l.findSome? f = some b ↔ ∃ (i : Nat) (a : α), l[i]? = some a ∧ f a = some b ∧
      ∀ j < i, ∀ a', l[j]? = some a' → f a' = none := by
  rw [List.findSome?_eq_some_iff]
  constructor
  · rintro ⟨front, a, back, rfl, hFound, hBefore⟩
    refine ⟨front.length, a, by simp, hFound, ?_⟩
    intro j hj a' hAt
    rw [List.getElem?_append_left hj] at hAt
    exact hBefore a' (List.mem_of_getElem? hAt)
  · rintro ⟨i, a, hAt, hFound, hBefore⟩
    obtain ⟨hBound, rfl⟩ := List.getElem?_eq_some_iff.mp hAt
    refine ⟨l.take i, l[i], l.drop (i + 1), ?_, hFound, ?_⟩
    · rw [List.getElem_cons_drop, List.take_append_drop]
    · intro a' ha'
      obtain ⟨j, hj, rfl⟩ := List.mem_take_iff_getElem.mp ha'
      exact hBefore j (by omega) l[j] (List.getElem?_eq_getElem (by omega))

namespace FileAnalysis

variable {file : FileAnalysis Ast} {component : Component Ast} {style : StyleDefinition}

/-- The style of a component is registered under its scope with its name, and exactly one text
imports it. -/
structure KeepsStyle (file : FileAnalysis Ast) (component : Component Ast)
    (style : StyleDefinition) : Prop where
  registered : file.Owns component style
  imported : file.styleImports.count
    (ImportedStyle.ofStyle file.fileId component.scopeId style).text = 1

/-- No two imports of a file are the same text, since each text says of one scope only. -/
theorem StyleRegistry.nodup_styleImports (h : file.StyleRegistry)
    (hScopes : ∀ c ∈ file.components, '&' ∉ c.scopeId.toList) : file.styleImports.Nodup := by
  rw [styleImports_eq, List.Nodup, List.pairwise_map]
  refine (List.pairwise_map.mp h.distinct).imp_of_mem ?_
  intro o o' ho ho' hScope hSame
  have hNone := hScopes _ (mem_components_of_mem_styledComponents ho)
  have hNone' := hScopes _ (mem_components_of_mem_styledComponents ho')
  have hTold := ImportedStyle.isToldBy_text (s := .ofStyle file.fileId o.1.scopeId o.2) hNone
  have hOther := hTold.only (.ofStyle file.fileId o'.1.scopeId o'.2) rfl hNone' hSame.symm
  exact hScope (congrArg ImportedStyle.scopeId hOther).symm

/-- A style that is registered for a component is imported once. -/
theorem StyleRegistry.keepsStyle_iff (h : file.StyleRegistry)
    (hScopes : ∀ c ∈ file.components, '&' ∉ c.scopeId.toList) :
    file.KeepsStyle component style ↔ file.Owns component style := by
  refine ⟨KeepsStyle.registered, fun hOwns => ⟨hOwns, ?_⟩⟩
  have hKey : component.scopeId ∈ file.styles.keys := Table.mem_keys_iff.mpr ⟨style, hOwns.1⟩
  obtain ⟨o, ho, hScope⟩ := List.mem_map.mp (h.scopes.mem_iff.mpr hKey)
  have hSame : o.2 = style := by
    have hFound := (h.registered o ho).1
    rw [hScope, hOwns.1] at hFound
    exact (Option.some.inj hFound).symm
  have hImport : (ImportedStyle.ofStyle file.fileId component.scopeId style).text ∈
      file.styleImports := by
    rw [styleImports_eq]
    exact List.mem_map.mpr ⟨o, ho, by rw [hScope, hSame]⟩
  exact List.count_eq_one_of_mem (h.nodup_styleImports hScopes) hImport

end FileAnalysis

namespace AnalysisInput

variable {input : AnalysisInput Ast} {file : FileAnalysis Ast}
  {declarations : List ComponentDeclaration}

/-- When no two declarations have one name, a style is registered for its component exactly if no
earlier declaration brings a style to the same scope. -/
theorem owns_iff {i : Nat} {d : ComponentDeclaration} {c : Component Ast} {style : StyleDefinition}
    (hStyles : file.styles = .empty)
    (hDistinct : (declarations.map ComponentDeclaration.name).Nodup)
    (hAt : declarations[i]? = some d) (hFrom : input.ComesFrom file.fileId d c)
    (hStyle : input.styleOf? d = some style) :
    (input.analyze file declarations).Owns c style ↔
      ∀ j < i, ∀ d', declarations[j]? = some d' → (input.styleOf? d').isSome = true →
        Digest.scopeId file.fileId d'.name ≠ Digest.scopeId file.fileId d.name := by
  have hName := component_of_styleOf? hStyle
  rw [FileAnalysis.Owns, input.find?_styles_analyze declarations hStyles,
    findSome?_eq_some_iff_getElem?, hFrom.scopeId, hFrom.name, and_iff_left hName]
  constructor
  · rintro ⟨k, d₀, hAt₀, hFound, hBefore⟩ j hj d' hAt' hSome hSame
    -- The registered style has the name of the declaration that brings it, so that is `d`.
    have hName₀ := component_of_styleOf? (Option.ite_none_right_eq_some.mp hFound).2
    have hBound : i < (declarations.map ComponentDeclaration.name).length := by
      rw [List.length_map]
      exact (List.getElem?_eq_some_iff.mp hAt).1
    obtain rfl : i = k := by
      apply (List.getElem?_inj hBound hDistinct).mp
      rw [List.getElem?_map, List.getElem?_map, hAt, hAt₀, Option.map_some, Option.map_some,
        ← hName, ← hName₀]
    have hNone := hBefore j hj d' hAt'
    rw [styleUnder?, if_pos hSame] at hNone
    rw [hNone] at hSome
    cases hSome
  · intro hNone
    refine ⟨i, d, hAt, by rw [styleUnder?, if_pos rfl, hStyle], ?_⟩
    intro j hj d' hAt'
    rw [styleUnder?, ite_eq_right_iff]
    intro hSame
    rw [← Option.not_isSome_iff_eq_none]
    exact fun hSome => hNone j hj d' hAt' hSome hSame

section

variable {program : List Tree} {apis : Reactivity}

/-- A component without an error brings a style exactly if it calls a style macro. -/
theorem isSome_styleOf?_iff {d : ComponentDeclaration}
    (hNoError : ∀ fault ∈ componentFaults program apis input.source d,
      fault.1.severity ≠ .error) :
    (input.styleOf? d).isSome = true ↔ sitesOf .style d.sites ≠ [] := by
  constructor
  · intro hSome hNone
    obtain ⟨style, hStyle⟩ := Option.isSome_iff_exists.mp hSome
    simp [styleOf?_eq_some_iff, styleOf, hNone] at hStyle
  · intro hSites
    have hFunction := Option.isSome_iff_exists.mpr (exists_function_of_no_error hNoError)
    obtain ⟨style, hStyle⟩ := exists_styleOf input.source d.name
      (duplicatedSingletons_eq_nil_of_no_error hNoError)
      (fun site hSite => siteFaults_eq_nil_of_no_error hNoError hSite) hSites
    rw [styleOf?_eq_some_iff.mpr ⟨hFunction, hStyle⟩, Option.isSome_some]

variable (hNoError : ∀ d ∈ declarations, ∀ fault ∈ componentFaults program apis input.source d,
  fault.1.severity ≠ .error)

include hNoError

variable (input file) in
/-- Declarations without errors become the components of a file one by one. -/
theorem forall₂_analyze_of_no_error (hEmpty : file.components = []) :
    List.Forall₂ (input.ComesFrom file.fileId) declarations
      (input.analyze file declarations).components := by
  rw [input.components_analyze declarations hEmpty]
  exact input.forall₂_comesFrom_of_no_error file.fileId hNoError

variable (input file) in
/-- When no two components have one name, a component keeps its style exactly if no earlier one of
the same scope calls a style macro. -/
theorem keepsStyle_iff (hEmpty : file.components = []) (hStyles : file.styles = .empty)
    (hDistinct : (declarations.map ComponentDeclaration.name).Nodup) {i : Nat}
    {d : ComponentDeclaration} {c : Component Ast} (hAt : declarations[i]? = some d)
    (hAt' : (input.analyze file declarations).components[i]? = some c)
    (hSites : sitesOf .style d.sites ≠ []) :
    ∃ style, styleOf input.source d.name d.sites = some style ∧
      ((input.analyze file declarations).KeepsStyle c style ↔
        ∀ j < i, ∀ d', declarations[j]? = some d' → sitesOf .style d'.sites ≠ [] →
          Digest.scopeId file.fileId d'.name ≠ Digest.scopeId file.fileId d.name) := by
  have hStyled : ∀ {j d'}, declarations[j]? = some d' →
      ((input.styleOf? d').isSome = true ↔ sitesOf .style d'.sites ≠ []) :=
    fun h => isSome_styleOf?_iff (hNoError _ (List.mem_of_getElem? h))
  obtain ⟨style, hStyle⟩ := Option.isSome_iff_exists.mp ((hStyled hAt).mpr hSites)
  have hAll := input.forall₂_analyze_of_no_error file hNoError hEmpty
  obtain ⟨_, hSame, hFrom⟩ := exists_getElem?_of_forall₂ hAll hAt
  rw [hAt', Option.some.injEq] at hSame
  subst hSame
  refine ⟨style, (styleOf?_eq_some_iff.mp hStyle).2, ?_⟩
  rw [(input.styleRegistry_analyze hEmpty hStyles declarations).keepsStyle_iff
      fun c => input.ampersand_notMem_of_mem_analyze hEmpty,
    owns_iff hStyles hDistinct hAt hFrom hStyle]
  exact forall₂_congr fun j _ => forall₂_congr fun d' hAt' => by rw [hStyled hAt']

end

end AnalysisInput

/-- In a valid file whose components have different names, a component that calls a style macro
keeps its style exactly if no component before it calls one and has the same scope. -/
theorem Compiler.keepsStyle_iff_analyzeFile (compiler : Compiler Ast) (code fileId : String)
    {hooks : Hooks Ast State} (hObserves : hooks.Observes) (state : State) :
    let file := (compiler.analyzeFile hooks state code fileId).1
    file.isValid = true → (file.components.map Component.name).Nodup →
      ∃ program, (compiler.parser code).program? = some program ∧
        file.components.map Component.name =
          (componentsOf program).map ComponentDeclaration.name ∧
        ∀ (i : Nat) (d : ComponentDeclaration) (c : Component Ast),
          (componentsOf program)[i]? = some d → file.components[i]? = some c →
          sitesOf .style d.sites ≠ [] →
          ∃ style, styleOf code d.name d.sites = some style ∧
            (file.KeepsStyle c style ↔
              ∀ j < i, ∀ d', (componentsOf program)[j]? = some d' →
                sitesOf .style d'.sites ≠ [] →
                Digest.scopeId fileId d'.name ≠ Digest.scopeId fileId d.name) := by
  intro file hValid hDistinct
  have hLeaves : Leaves compiler code fileId file :=
    compiler.leaves_analyzeFile code fileId hObserves state
  clear_value file
  cases hLeaves with
  | rejected _ _ hInvalid =>
      rw [hInvalid] at hValid
      cases hValid
  | @analyzed program hParse hRoot =>
      obtain ⟨-, hNoError⟩ := passed_iff.mp (passed_of_isValid compiler hValid)
      have hAll := (compiler.analysisInput code program).forall₂_analyze_of_no_error
        (checkedFile code fileId program) hNoError rfl
      have hNames := AnalysisInput.map_name_of_forall₂ hAll
      rw [hNames] at hDistinct
      refine ⟨program, hParse, hNames, fun i d c hAt hAt' hSites => ?_⟩
      exact (compiler.analysisInput code program).keepsStyle_iff
        (checkedFile code fileId program) hNoError rfl rfl hDistinct hAt hAt' hSites

/-- The names of the components that a text declares, with the number of their style macros. -/
def styleCalls (code : String) : Option (List (String × Nat)) :=
  (scriptCompiler.parser code).program?.map fun program =>
    (componentsOf program).map fun d => (d.name, (sitesOf .style d.sites).length)

/-- Components of different scopes keep their styles. -/
theorem Compiler.keepsStyle_twoStyles :
    watcher.Observes ∧ (watched (twoStyles "A" "B")).isValid = true ∧
      ((watched (twoStyles "A" "B")).components.map Component.name).Nodup ∧
      ∀ c, (watched (twoStyles "A" "B")).components[1]? = some c →
        ∃ style, (watched (twoStyles "A" "B")).KeepsStyle c style := by
  have hObserves : watcher.Observes := fun _ _ _ => rfl
  obtain ⟨hValid, hNames, hDeclared⟩ : (watched (twoStyles "A" "B")).isValid = true ∧
      ((watched (twoStyles "A" "B")).components.map Component.name).Nodup ∧
      styleCalls (twoStyles "A" "B") = some [("A", 1), ("B", 1)] := by decide +kernel
  refine ⟨hObserves, hValid, hNames, fun c hAt => ?_⟩
  obtain ⟨program, hParse, -, hKeeps⟩ :=
    Compiler.keepsStyle_iff_analyzeFile scriptCompiler (twoStyles "A" "B") "f" hObserves []
      hValid hNames
  rw [styleCalls, hParse, Option.map_some, Option.some.injEq] at hDeclared
  obtain ⟨first, rest, hList, hFirst, hRest⟩ := List.map_eq_cons_iff.mp hDeclared
  obtain ⟨second, _, rfl, hSecond, -⟩ := List.map_eq_cons_iff.mp hRest
  rw [Prod.mk.injEq] at hFirst hSecond
  rw [hList] at hKeeps
  obtain ⟨style, -, hIff⟩ := hKeeps 1 second c rfl hAt
    (List.ne_nil_of_length_pos (by rw [hSecond.2]; exact Nat.one_pos))
  refine ⟨style, hIff.mpr fun j hj d' hAt' _ => ?_⟩
  obtain rfl : j = 0 := by omega
  obtain rfl : first = d' := Option.some.inj hAt'
  rw [hFirst.1, hSecond.1]
  decide +kernel

/-- Two names of a valid file that have one scope. The second component loses its style. -/
theorem Compiler.not_keepsStyle_sharedScope :
    (watched (twoStyles "Aa" "BB")).isValid = true ∧
      (watched (twoStyles "Aa" "BB")).components.map Component.name = ["Aa", "BB"] ∧
      styleCalls (twoStyles "Aa" "BB") = some [("Aa", 1), ("BB", 1)] ∧
      ∀ c ∈ (watched (twoStyles "Aa" "BB")).components, c.name = "BB" →
        ∀ style, ¬ (watched (twoStyles "Aa" "BB")).KeepsStyle c style := by
  obtain ⟨hValid, hNames, hDeclared, hRegistered⟩ :
      (watched (twoStyles "Aa" "BB")).isValid = true ∧
      (watched (twoStyles "Aa" "BB")).components.map Component.name = ["Aa", "BB"] ∧
      styleCalls (twoStyles "Aa" "BB") = some [("Aa", 1), ("BB", 1)] ∧
      ∀ c ∈ (watched (twoStyles "Aa" "BB")).components, c.name = "BB" →
        ((watched (twoStyles "Aa" "BB")).styles.find? c.scopeId).map StyleDefinition.component =
          some "Aa" := by decide +kernel
  refine ⟨hValid, hNames, hDeclared, ?_⟩
  intro c hc hName style hKeeps
  have hFound := hRegistered c hc hName
  rw [hKeeps.registered.1, Option.map_some, hKeeps.registered.2, hName] at hFound
  exact absurd (Option.some.inj hFound) (by decide)

end ComponentAnalysis
