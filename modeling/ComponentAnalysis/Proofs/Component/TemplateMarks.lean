import ComponentAnalysis.Proofs.Compiler.Analyzed
import ComponentAnalysis.Proofs.Component.Registration
import ComponentAnalysis.Proofs.Imports.Specifiers

/-! Which imports templates use. A run of the analysis marks the names that the template compiler
reports for the components that it adds; all else about the imports stays as it was, and names that
are not imported change nothing. -/
namespace ComponentAnalysis

namespace Imports

/-- What a mark does to a record. -/
def mark (r : ImportRecord) : ImportRecord := { r with isUsedInTemplate := true }

section

variable {imports : Imports} {names : List String} {name : String} {r : ImportRecord}

/-- Marking changes the records of the names and no aliases. -/
theorem markUsed_eq :
    imports.markUsed names = ⟨imports.records.modifyAll names mark, imports.aliases⟩ := rfl

/-- Names may be marked one list after the other. -/
theorem markUsed_append (more : List String) :
    imports.markUsed (names ++ more) = (imports.markUsed names).markUsed more := by
  simp only [markUsed_eq, Table.modifyAll_append]

/-- Marking adds no names, so those that are not imported stay out. -/
theorem keys_markUsed : (imports.markUsed names).records.keys = imports.records.keys :=
  Table.keys_modifyAll

/-- A record is marked if its name is among the names. -/
theorem find?_markUsed :
    (imports.markUsed names).records.find? name =
      if name ∈ names then (imports.records.find? name).map mark else imports.records.find? name :=
  Table.find?_modifyAll (f := mark) (fun _ => rfl) name

/-- The imports of a program come without marks. -/
theorem isUsedInTemplate_ofProgram {program : List Tree}
    (h : (ofProgram program).records.find? name = some r) : r.isUsedInTemplate = false := by
  rw [find?_records] at h
  obtain ⟨s, hs, hEntry⟩ := List.mem_map.mp (mem_of_lastOf? h)
  obtain ⟨-, rfl⟩ := Prod.mk.inj hEntry
  obtain ⟨t, -, hImported⟩ := List.mem_flatMap.mp hs
  obtain ⟨typeOnly, -, d, -, hRecord⟩ := Tree.exists_hasRecord_of_mem hImported
  exact hRecord.isUsedInTemplate

end

/-- Imports differ from others in the marks only, and the names that are in use have one. -/
structure MarksExactly (before after : Imports) (used : String → Prop) : Prop where
  aliases : after.aliases = before.aliases
  names : after.records.keys = before.records.keys
  record : ∀ name r, before.records.find? name = some r →
    ∃ isUsed, after.records.find? name = some { r with isUsedInTemplate := isUsed } ∧
      (isUsed = true ↔ used name)

/-- Marking the imports of a program marks exactly the names that are given. -/
theorem marksExactly_markUsed (program : List Tree) (names : List String) :
    MarksExactly (ofProgram program) ((ofProgram program).markUsed names) (· ∈ names) where
  aliases := rfl
  names := keys_markUsed
  record name r hRecord := by
    rw [find?_markUsed, hRecord]
    by_cases hMem : name ∈ names
    · exact ⟨true, if_pos hMem, iff_of_true rfl hMem⟩
    · have hUnmarked := isUsedInTemplate_ofProgram hRecord
      refine ⟨false, ?_, iff_of_false Bool.false_ne_true hMem⟩
      rw [if_neg hMem, ← hUnmarked]

end Imports

namespace AnalysisInput

variable {Ast : Type} (input : AnalysisInput Ast) (file : FileAnalysis Ast)
  (declaration : ComponentDeclaration) (declarations : List ComponentDeclaration)

/-- The names that the template compiler reports for the template of a component. -/
def reportedNames (c : Component Ast) : List String :=
  match c.template, c.templateRange with
  | some source, some range =>
    (input.templates ⟨c.name, source, range, c.bindings, input.options⟩).references
  | _, _ => []

/-- The names reported for a declaration are those reported for the component that it adds. -/
theorem imports_addComponent :
    (input.addComponent file declaration).imports = file.imports.markUsed
      ((input.componentOf? file.fileId declaration).toList.flatMap input.reportedNames) := by
  cases hFunction : declaration.function with
  | none =>
      simp only [addComponent, componentOf?, hFunction]
      rfl
  | some f =>
      simp only [addComponent, componentOf?, hFunction, Option.map_some, Option.toList_some,
        List.flatMap_singleton]
      cases declaration.markup with
      | none => rfl
      | some markup =>
          -- The template compiler is not given the style variables.
          dsimp only
          split
          · split <;> rfl
          · rfl

/-- A run marks what is reported for the components that it adds. -/
theorem imports_foldl :
    (declarations.foldl input.addComponent file).imports = file.imports.markUsed
      ((declarations.filterMap (input.componentOf? file.fileId)).flatMap input.reportedNames) := by
  induction declarations generalizing file with
  | nil => rfl
  | cons declaration declarations ih =>
      rw [List.foldl_cons, ih, imports_addComponent, fileId_addComponent, ← Imports.markUsed_append,
        ← List.flatMap_append, List.filterMap_cons]
      cases input.componentOf? file.fileId declaration <;> rfl

/-- The input with a template compiler that only reports names which are imported. -/
def importedOnly : AnalysisInput Ast :=
  { input with
    templates := fun template =>
      let output := input.templates template
      { output with references := output.references.filter input.imports.records.contains } }

variable {file} in
/-- Names that are not imported make no difference to a component. -/
theorem addComponent_importedOnly
    (hKeys : file.imports.records.keys = input.imports.records.keys) :
    input.importedOnly.addComponent file declaration = input.addComponent file declaration := by
  have hMarks : ∀ names, file.imports.markUsed (names.filter input.imports.records.contains) =
      file.imports.markUsed names := fun names => by
    rw [Imports.markUsed_eq, Imports.markUsed_eq, Table.modifyAll_filter]
    intro name hMem
    exact Table.contains_eq_true_iff.mpr (hKeys ▸ hMem)
  cases hFunction : declaration.function with
  | none => simp only [addComponent, hFunction]
  | some f =>
      simp only [addComponent, hFunction]
      cases declaration.markup with
      | none => rfl
      | some markup =>
          dsimp only [importedOnly, addTemplate]
          rw [hMarks]
          rfl

/-- Nor do they over several components. -/
theorem foldl_importedOnly (hKeys : file.imports.records.keys = input.imports.records.keys) :
    declarations.foldl input.importedOnly.addComponent file =
      declarations.foldl input.addComponent file := by
  induction declarations generalizing file with
  | nil => rfl
  | cons declaration declarations ih =>
      rw [List.foldl_cons, List.foldl_cons, input.addComponent_importedOnly declaration hKeys, ih]
      rw [imports_addComponent, Imports.keys_markUsed, hKeys]

/-- After the analysis of a script, the imports of its file are those of its import declarations.
Just the names that the template compiler reports for the template of an added component are marked,
and names that are not imported change nothing in the file. -/
theorem analyze_marksExactly (compiler : Compiler Ast) (code : String) (program : List Tree)
    (file : FileAnalysis Ast) (declarations : List ComponentDeclaration) :
    ∃ added, ((compiler.analysisInput code program).analyze file declarations).components =
        file.components ++ added ∧
      List.Forall₂ ((compiler.analysisInput code program).ComesFrom file.fileId)
        (declarations.filter fun d => d.function.isSome) added ∧
      Imports.MarksExactly (.ofProgram program)
        ((compiler.analysisInput code program).analyze file declarations).imports
        (fun name => ∃ c ∈ added, name ∈ (compiler.analysisInput code program).reportedNames c) ∧
      (compiler.analysisInput code program).importedOnly.analyze file declarations =
        (compiler.analysisInput code program).analyze file declarations := by
  let input := compiler.analysisInput code program
  have hRun := input.imports_foldl { file with imports := input.imports } declarations
  refine ⟨_, input.components_foldl { file with imports := input.imports } declarations,
    input.forall₂_comesFrom file.fileId declarations, ?_, ?_⟩
  · rw [analyze, hRun]
    have hMarks := Imports.marksExactly_markUsed program
      ((declarations.filterMap (input.componentOf? file.fileId)).flatMap input.reportedNames)
    simp only [List.mem_flatMap] at hMarks
    exact hMarks
  · exact input.foldl_importedOnly { file with imports := input.imports } declarations rfl

end AnalysisInput

end ComponentAnalysis
