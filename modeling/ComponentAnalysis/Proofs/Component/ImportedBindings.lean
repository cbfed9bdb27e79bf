import ComponentAnalysis.Proofs.Compiler.Analyzed
import ComponentAnalysis.Proofs.Component.Registration
import ComponentAnalysis.Proofs.Component.Totality
import ComponentAnalysis.Proofs.Imports.Specifiers

/-! The imports of a file next to the bindings of its components. Where nothing else has the name of
an import, a component has it as a constant just if it is not imported as a type. -/
namespace ComponentAnalysis

namespace Tree

/-- A child of an import declaration is a specifier, with its local name and its record. -/
def Imports (t d : Tree) (entry : String × ImportRecord) : Prop :=
  ∃ typeOnly, t.kind = .importDeclaration typeOnly ∧
    d.HasRecord t.moduleName typeOnly entry.1 entry.2

/-- What the analysis of imports takes from a child of a statement. -/
def importRecord? (t d : Tree) : Option (String × ImportRecord) :=
  match t.kind with
  | .importDeclaration typeOnly =>
    (specifierName? t.moduleName typeOnly d).map fun n => (n.localName, n.record)
  | _ => none

/-- The analysis records just the specifiers of imports. -/
theorem importRecord?_eq_some_iff {t d : Tree} {entry : String × ImportRecord} :
    t.importRecord? d = some entry ↔ t.Imports d entry := by
  simp only [Imports, hasRecord_iff]
  unfold importRecord?
  split
  · rename_i typeOnly hKind
    rw [Option.map_eq_some_iff]
    constructor
    · rintro ⟨n, hName, rfl⟩
      exact ⟨typeOnly, hKind, n, hName, rfl, rfl⟩
    · rintro ⟨typeOnly', hKind', n, hName, hLocal, hRecord⟩
      obtain rfl := Kind.importDeclaration.inj (hKind.symm.trans hKind')
      exact ⟨n, hName, Prod.ext hLocal hRecord⟩
  · rename_i hOther
    refine iff_of_false (Option.some_ne_none entry).symm ?_
    rintro ⟨typeOnly, hKind, -⟩
    exact hOther typeOnly hKind

instance (t d : Tree) : Decidable (∃ entry, t.Imports d entry) :=
  decidable_of_iff ((t.importRecord? d).isSome = true) <| by
    rw [Option.isSome_iff_exists]
    exact exists_congr fun _ => importRecord?_eq_some_iff

/-- It records them in the order in which they stand. -/
theorem filterMap_importRecord? (t : Tree) :
    t.children.filterMap t.importRecord? =
      t.importedNames.map fun n => (n.localName, n.record) := by
  unfold importRecord?
  split
  · rename_i typeOnly hKind
    simp only [importedNames, hKind, List.map_filterMap]
  · simp [importedNames, *]

end Tree

/-- The specifiers of all import declarations of a program, each with its declaration. -/
def importSpecifiers (program : List Tree) : List (Tree × Tree) :=
  (nodesOf Tree.children program).filter fun e => ∃ entry, e.1.Imports e.2 entry

namespace Imports

variable {program : List Tree}

/-- If local names differ, the records of a program are those of its specifiers, in order. -/
theorem entries_records (hDistinct : ((specifiers program).map ImportedName.localName).Nodup) :
    (ofProgram program).records.entries =
      (specifiers program).map fun s => (s.localName, s.record) := by
  rw [ofProgram, foldl_add]
  exact Table.entries_ofList (by rwa [List.map_map])

/-- There is one record for each specifier, in order. -/
theorem forall₂_imports (hDistinct : ((specifiers program).map ImportedName.localName).Nodup) :
    List.Forall₂ (fun e entry => e.1.Imports e.2 entry) (importSpecifiers program)
      (ofProgram program).records.entries := by
  have hEntries : (ofProgram program).records.entries =
      (nodesOf Tree.children program).filterMap fun e => e.1.importRecord? e.2 := by
    rw [entries_records hDistinct, specifiers, nodesOf, List.map_flatMap, List.filterMap_flatMap]
    apply List.flatMap_congr
    intro t _
    rw [← t.filterMap_importRecord?, List.filterMap_map]
    rfl
  rw [hEntries]
  refine forall₂_filterMap _ (fun e _ => ?_) fun e _ entry => Tree.importRecord?_eq_some_iff.mp
  rw [Bool.eq_iff_iff, Option.isSome_iff_exists, decide_eq_true_iff]
  exact exists_congr fun _ => Tree.importRecord?_eq_some_iff

end Imports

/-- An import declaration of a program binds a name at run time. -/
def BoundByImport (program : List Tree) (name : String) : Prop :=
  ∃ t ∈ program, t.declarationForm = .moduleImport ∧ (name, .setupConst) ∈ t.moduleBindings

/-- Something other than an import has a name: another top-level statement, the component, its props
or a declaration at the top of its body. -/
inductive Reuses {Ast : Type} (program : List Tree) (f : Tree) (component : Component Ast)
    (name : String) : Prop where
  | module {t d : Tree} (hMem : t ∈ program) (hOther : t.declarationForm ≠ .moduleImport)
      (h : t.ModuleDeclares name d)
  | self (h : component.name = name) (hSome : name ≠ "")
  | props (h : component.propsAlias = name) (hSome : name ≠ "")
  | body {t d : Tree} (hMem : t ∈ f.bodyStatements) (h : t.Declares name d)

/-- The bindings of a component agree with the imports of its file: the names that are not imported
as types are constants that come from an import, and the others are not bound. -/
structure AgreesWithImports (program : List Tree) (bindings : Table BindingKind) : Prop where
  runtime : ∀ name,
    (∃ r, (Imports.ofProgram program).records.find? name = some r ∧ r.isType = false) ↔
      bindings.find? name = some .setupConst ∧ BoundByImport program name
  types : ∀ name r, (Imports.ofProgram program).records.find? name = some r → r.isType = true →
    bindings.find? name = none

section

variable {program : List Tree} {name : String}

/-- Imports bind the names that are not imported as types. -/
theorem boundByImport_iff : BoundByImport program name ↔
    ∃ s ∈ Imports.specifiers program, s.localName = name ∧ s.record.isType = false := by
  constructor
  · rintro ⟨t, hMem, hForm, hBinding⟩
    obtain ⟨typeOnly, hKind⟩ := Tree.declarationForm_eq_moduleImport_iff.mp hForm
    rw [Tree.moduleBindings_of_import hKind] at hBinding
    obtain ⟨s, hs, hName⟩ := List.mem_map.mp hBinding
    obtain ⟨hs, hRuntime⟩ := List.mem_filter.mp hs
    exact ⟨s, List.mem_flatMap.mpr ⟨t, hMem, hs⟩, congrArg Prod.fst hName,
      by simpa using hRuntime⟩
  · rintro ⟨s, hs, rfl, hRuntime⟩
    obtain ⟨t, hMem, hs⟩ := List.mem_flatMap.mp hs
    obtain ⟨typeOnly, hKind, -⟩ := Tree.mem_importedNames_iff.mp hs
    refine ⟨t, hMem, Tree.declarationForm_eq_moduleImport_iff.mpr ⟨typeOnly, hKind⟩, ?_⟩
    rw [Tree.moduleBindings_of_import hKind]
    exact List.mem_map.mpr ⟨s, List.mem_filter.mpr ⟨hs, by simp [hRuntime]⟩, rfl⟩

/-- A statement binds the names that it declares, each as its node says. -/
theorem Tree.mem_moduleBindings_iff {t : Tree} {kind : BindingKind} :
    (name, kind) ∈ t.moduleBindings ↔ ∃ d, t.ModuleDeclares name d ∧ d.kindInModule = kind := by
  simp only [Tree.entries_moduleBindings, List.mem_flatMap, List.mem_map, Prod.mk.injEq,
    Tree.moduleDeclares_iff]
  constructor
  · rintro ⟨d, hNode, _, hName, rfl, hKind⟩
    exact ⟨d, ⟨hNode, hName⟩, hKind⟩
  · rintro ⟨d, ⟨hNode, hName⟩, hKind⟩
    exact ⟨d, hNode, name, hName, rfl, hKind⟩

/-- What an import declares is a constant that is bound by it. -/
theorem boundByImport_of_declares {t d : Tree} (hMem : t ∈ program)
    (hForm : t.declarationForm = .moduleImport) (h : t.ModuleDeclares name d) :
    d.kindInModule = .setupConst ∧ BoundByImport program name := by
  have hBinding : (name, d.kindInModule) ∈ t.moduleBindings :=
    Tree.mem_moduleBindings_iff.mpr ⟨d, h, rfl⟩
  obtain ⟨typeOnly, hKind⟩ := Tree.declarationForm_eq_moduleImport_iff.mp hForm
  have hConst : d.kindInModule = .setupConst := by
    rw [Tree.moduleBindings_of_import hKind] at hBinding
    obtain ⟨s, -, hEntry⟩ := List.mem_map.mp hBinding
    exact (congrArg Prod.snd hEntry).symm
  exact ⟨hConst, t, hMem, hForm, hConst ▸ hBinding⟩

/-- An import is no component. -/
theorem declarationForm_ne_of_isComponent {t : Tree} (h : t.isComponent = true) :
    t.declarationForm ≠ .moduleImport := by
  intro hForm
  obtain ⟨typeOnly, hKind⟩ := Tree.declarationForm_eq_moduleImport_iff.mp hForm
  simp [Tree.isComponent, Tree.exportableForm_declared_of_import hKind] at h

end

section

variable {Ast : Type} {program : List Tree} {apis : Reactivity} {declaration : ComponentDeclaration}
  {f : Tree} {propsAlias : Option String} {component : Component Ast}
  (hMember : declaration ∈ componentsOf program) (hName : component.name = declaration.name)
  (hProps : ∀ name, propsAlias = some name ↔ component.propsAlias = name ∧ name ≠ "")

include hMember hName hProps

/-- A name that nothing but imports has is bound just by them, and as a constant. -/
theorem find?_bindings_iff_of_not_reused {name : String} {kind : BindingKind}
    (hNotReused : ¬ Reuses program f component name) :
    (classifyBindings program apis declaration f propsAlias).bindings.find? name = some kind ↔
      kind = .setupConst ∧ BoundByImport program name := by
  have hConst : ∀ kind,
      (classifyBindings program apis declaration f propsAlias).bindings.find? name = some kind →
        kind = .setupConst ∧ BoundByImport program name := by
    intro kind hKind
    rcases (BindingScope.find?_bindings_iff ..).mp hKind with
      ⟨t, d, hLast, -⟩ | ⟨-, ⟨hAlias, -⟩ | ⟨-, ⟨hSelf, hSome, -⟩ | ⟨-, t, d, hLast, hBound⟩⟩⟩
    · exact absurd (.body (mem_nodesOf.mp hLast.mem).1 hLast.holds) hNotReused
    · obtain ⟨h, hSome⟩ := (hProps name).mp hAlias
      exact absurd (.props h hSome) hNotReused
    · exact absurd (.self (hName.trans hSelf.symm) hSome) hNotReused
    · have hMem := List.mem_of_mem_eraseIdx (mem_nodesOf.mp hLast.mem).1
      have hForm : t.declarationForm = .moduleImport := by
        by_contra hOther
        exact hNotReused (.module hMem hOther hLast.holds)
      obtain ⟨hImport, hByImport⟩ := boundByImport_of_declares hMem hForm hLast.holds
      exact ⟨(Tree.moduleKind_iff.mp hBound).symm.trans hImport, hByImport⟩
  refine ⟨hConst kind, ?_⟩
  rintro ⟨rfl, t, hMem, hForm, hBinding⟩
  obtain ⟨d, hDeclares, -⟩ := Tree.mem_moduleBindings_iff.mp hBinding
  -- An import is not the statement of the component, which the analysis leaves out.
  obtain ⟨i, hi⟩ := List.mem_iff_getElem?.mp hMem
  have hElsewhere : i ≠ declaration.position := by
    rintro rfl
    obtain ⟨position, statement, hAt, hComponent, rfl⟩ := mem_componentsOf.mp hMember
    obtain rfl := Option.some.inj (hi.symm.trans hAt)
    exact declarationForm_ne_of_isComponent hComponent hForm
  have hRecorded : Recorded program declaration f component name :=
    .module (List.mem_eraseIdx_iff_getElem?.mpr ⟨i, hElsewhere, hi⟩) hDeclares
  obtain ⟨kind, hKind⟩ := (exists_binding_iff hName (hProps name)).mpr hRecorded
  rwa [(hConst kind hKind).1] at hKind

/-- Bindings agree with imports of different names that nothing else has. -/
theorem agreesWithImports
    (hDistinct : ((Imports.specifiers program).map ImportedName.localName).Nodup)
    (hNotReused : ∀ s ∈ Imports.specifiers program, ¬ Reuses program f component s.localName) :
    AgreesWithImports program
      (classifyBindings program apis declaration f propsAlias).bindings := by
  constructor
  · intro name
    have hRecord : (∃ r, (Imports.ofProgram program).records.find? name = some r ∧
        r.isType = false) ↔ BoundByImport program name := by
      simp only [boundByImport_iff, Imports.record_eq_some_iff hDistinct]
      exact ⟨fun ⟨_, ⟨s, hs, hLocal, hSame⟩, hRuntime⟩ => ⟨s, hs, hLocal, hSame ▸ hRuntime⟩,
        fun ⟨s, hs, hLocal, hRuntime⟩ => ⟨_, ⟨s, hs, hLocal, rfl⟩, hRuntime⟩⟩
    rw [hRecord]
    refine ⟨fun hByImport => ⟨?_, hByImport⟩, And.right⟩
    obtain ⟨s, hs, rfl, -⟩ := boundByImport_iff.mp hByImport
    exact (find?_bindings_iff_of_not_reused hMember hName hProps (hNotReused s hs)).mpr
      ⟨rfl, hByImport⟩
  · intro name r hRecord hType
    obtain ⟨s, hs, rfl, rfl⟩ := (Imports.record_eq_some_iff hDistinct).mp hRecord
    refine Option.eq_none_iff_forall_ne_some.mpr fun kind hKind => ?_
    obtain ⟨-, hByImport⟩ :=
      (find?_bindings_iff_of_not_reused hMember hName hProps (hNotReused s hs)).mp hKind
    obtain ⟨s', hs', hLocal, hRuntime⟩ := boundByImport_iff.mp hByImport
    obtain rfl := Imports.eq_of_localName hDistinct hs' hs hLocal
    rw [hType] at hRuntime
    cases hRuntime

end

namespace AnalysisInput

/-- The imports of a script have one record for each specifier, with its module and its marks. Where
nothing else has the name of an import, the bindings of the components agree with the records. -/
theorem analyze_agreesWithImports {Ast : Type} (compiler : Compiler Ast) (code : String)
    (program : List Tree) (file : FileAnalysis Ast)
    (hDistinct : ((Imports.specifiers program).map ImportedName.localName).Nodup) :
    List.Forall₂ (fun e entry => e.1.Imports e.2 entry) (importSpecifiers program)
        (Imports.ofProgram program).records.entries ∧
      ∃ added, ((compiler.analysisInput code program).analyze file
          (componentsOf program)).components = file.components ++ added ∧
        List.Forall₂ (fun declaration component => ∃ f, declaration.function = some f ∧
            ((∀ s ∈ Imports.specifiers program, ¬ Reuses program f component s.localName) →
              AgreesWithImports program component.bindings))
          ((componentsOf program).filter fun d => d.function.isSome) added := by
  let input := compiler.analysisInput code program
  refine ⟨Imports.forall₂_imports hDistinct, _,
    input.components_foldl { file with imports := input.imports } (componentsOf program), ?_⟩
  apply forall₂_filterMap _ fun d _ => input.isSome_componentOf? file.fileId d
  intro d hMember c hComponent
  obtain ⟨f, hFunction, _, _, _, _, rfl⟩ := eq_of_componentOf? hComponent
  refine ⟨f, hFunction, fun hNotReused => ?_⟩
  exact agreesWithImports hMember rfl (fun name => filter_ne_empty_eq_some_iff) hDistinct hNotReused

end AnalysisInput

/-- The function of a component without props and declarations. -/
def plainStatement : Tree :=
  .node (.function .declaration) ⟨67, 101⟩
    [.node (.binding "A") ⟨76, 77⟩ [],
      .node .parameters ⟨77, 79⟩ [],
      .node .functionBody ⟨80, 101⟩
        [.node .returnStatement ⟨82, 99⟩
          [.node .taggedTemplate ⟨89, 99⟩
            [.node (.reference "vine") ⟨89, 93⟩ [],
              .node .template ⟨93, 99⟩ [.node (.templateText (some "<a/>")) ⟨94, 98⟩ []]]]]]

/-- Imports in all forms, with marks of types on a declaration and on a specifier. -/
def mixedProgram : List Tree :=
  [.node (.importDeclaration false) ⟨0, 37⟩
      [.node .importDefault ⟨7, 8⟩ [.node (.binding "d") ⟨7, 8⟩ []],
        .node (.importNamed true) ⟨12, 18⟩
          [.node (.name "T") ⟨17, 18⟩ [], .node (.binding "T") ⟨17, 18⟩ []],
        .node (.importNamed false) ⟨20, 26⟩
          [.node (.name "v") ⟨20, 21⟩ [], .node (.binding "w") ⟨25, 26⟩ []],
        .node (.string "m") ⟨34, 37⟩ []],
    .node (.importDeclaration true) ⟨38, 66⟩
      [.node .importNamespace ⟨50, 57⟩ [.node (.binding "ns") ⟨55, 57⟩ []],
        .node (.string "n") ⟨63, 66⟩ []],
    plainStatement]

def mixedCode : String :=
  "import d, \x7b type T, v as w \x7d from 'm'\nimport type * as ns from 'n'\n" ++
    "function A() \x7b return vine`<a/>` \x7d\n"

/-- Specifiers of all forms, of which two are types. -/
theorem analyze_agreesWithImports_mixed :
    ((Imports.specifiers mixedProgram).map ImportedName.localName).Nodup ∧
      List.Forall₂ (fun e entry => e.1.Imports e.2 entry) (importSpecifiers mixedProgram)
        (Imports.ofProgram mixedProgram).records.entries ∧
      ∃ component, ((({} : Compiler Unit).analysisInput mixedCode mixedProgram).analyze
          { fileId := "mixed", source := mixedCode } (componentsOf mixedProgram)).components =
            [component] ∧
        AgreesWithImports mixedProgram component.bindings := by
  have hDistinct : ((Imports.specifiers mixedProgram).map ImportedName.localName).Nodup := by decide
  obtain ⟨hRecords, added, hAdded, hAll⟩ := AnalysisInput.analyze_agreesWithImports
    ({} : Compiler Unit) mixedCode mixedProgram { fileId := "mixed", source := mixedCode } hDistinct
  have hDeclarations : ((componentsOf mixedProgram).filter fun d => d.function.isSome) =
      [.ofStatement 2 plainStatement] := rfl
  have hNames : added.map (fun c => (c.name, c.propsAlias)) = [("A", "")] := by
    rw [← List.nil_append added, ← hAdded]
    rfl
  rw [hDeclarations] at hAll
  obtain - | ⟨⟨f, hFunction, hAgrees⟩, - | -⟩ := hAll
  rename_i component
  obtain ⟨hName, hProps⟩ := Prod.mk.inj (List.singleton_inj.mp hNames)
  obtain rfl := Option.some.inj hFunction
  refine ⟨hDistinct, hRecords, component, hAdded, hAgrees fun s hs hReused => ?_⟩
  have hLocal : s.localName ∈ ["d", "T", "w", "ns"] := List.mem_map_of_mem hs
  cases hReused with
  | self h _ =>
      rw [← h, hName] at hLocal
      exact absurd hLocal (by decide)
  | props h hSome => exact hSome (h.symm.trans hProps)
  | body hMem h =>
      obtain rfl := List.mem_singleton.mp hMem
      exact List.not_mem_nil (Tree.declares_iff.mp h).2
  | module hMem hOther h =>
      simp only [mixedProgram, List.mem_cons, List.not_mem_nil, or_false] at hMem
      obtain rfl | rfl | rfl := hMem
      · exact hOther rfl
      · exact hOther rfl
      · obtain ⟨hNode, hOwn⟩ := Tree.moduleDeclares_iff.mp h
        obtain rfl := List.mem_singleton.mp hNode
        rw [List.mem_singleton.mp hOwn] at hLocal
        exact absurd hLocal (by decide)

end ComponentAnalysis
