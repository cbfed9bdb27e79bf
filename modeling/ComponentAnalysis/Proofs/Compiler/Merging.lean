import ComponentAnalysis.Proofs.Compiler.Coherence

/-! Splitting the files between two compilers and merging them comes to the same as giving all files
to one compiler. -/
namespace ComponentAnalysis

variable {Ast : Type}

/-- A text to compile and the id of its file. -/
structure SourceFile where
  fileId : String
  code : String

namespace Compiler

variable (compiler : Compiler Ast)

/-- What a compiler makes of a file when no hooks look on. -/
def analysis (file : SourceFile) : FileAnalysis Ast :=
  (compiler.compile ({} : Hooks Ast Unit) () file.code file.fileId).2.1

/-- Compile files one after the other without hooks. -/
def compileAll (files : List SourceFile) : Compiler Ast :=
  files.foldl (fun c file => (c.compile ({} : Hooks Ast Unit) () file.code file.fileId).1) compiler

theorem fileId_analysis (file : SourceFile) : (compiler.analysis file).fileId = file.fileId :=
  fileId_analyzeFile (fun _ _ _ => rfl) ()

/-- Compiling one file stores what the compiler makes of it. -/
theorem compileAll_cons (file : SourceFile) (files : List SourceFile) :
    compiler.compileAll (file :: files) =
      (compiler.store (compiler.analysis file)).compileAll files := rfl

/-- What a compiler makes of a file does not depend on the files before it. -/
theorem analysis_store (stored : FileAnalysis Ast) :
    (compiler.store stored).analysis = compiler.analysis := rfl

theorem diagnostics_compileAll (files : List SourceFile) :
    (compiler.compileAll files).diagnostics =
      compiler.diagnostics ++ files.flatMap fun file => (compiler.analysis file).diagnostics := by
  induction files generalizing compiler with
  | nil => exact (List.append_nil _).symm
  | cons file files ih =>
      rw [compileAll_cons, ih, analysis_store, List.flatMap_cons, ← List.append_assoc]
      rfl

/-- After a run an id stands for the last file of the run that has it. -/
theorem file?_compileAll (files : List SourceFile) (fileId : String) :
    (compiler.compileAll files).file? fileId =
      (((files.filter fun file => file.fileId = fileId).getLast?).map compiler.analysis).or
        (compiler.file? fileId) := by
  induction files generalizing compiler with
  | nil => rfl
  | cons file files ih =>
      rw [compileAll_cons, ih, analysis_store, file?_store, fileId_analysis]
      by_cases hName : file.fileId = fileId
      · rw [List.filter_cons_of_pos (by simpa using hName), List.getLast?_cons, if_pos hName.symm]
        cases (files.filter fun file => file.fileId = fileId).getLast? <;> rfl
      · rw [List.filter_cons_of_neg (by simpa using hName), if_neg (Ne.symm hName)]

theorem file?_merge (other : Compiler Ast) (fileId : String) :
    (compiler.merge other).file? fileId = (other.file? fileId).or (compiler.file? fileId) :=
  Table.find?_insertAll_entries compiler.files other.files fileId

/-- Two compilers that start empty and are merged report and keep what one compiler does that gets
the files of both; for each id that is the analysis of the last file that has it. -/
theorem merge_compileAll (options : CompilerOptions) (parser : Parser)
    (templates : TemplateCompiler Ast) (first second : List SourceFile) :
    let empty : Compiler Ast := { options, parser, templates }
    let merged := (empty.compileAll first).merge (empty.compileAll second)
    let whole := empty.compileAll (first ++ second)
    merged.diagnostics = whole.diagnostics ∧
      ∀ fileId, merged.file? fileId = whole.file? fileId ∧
        whole.file? fileId =
          (((first ++ second).filter fun file => file.fileId = fileId).getLast?).map
            empty.analysis := by
  intro empty merged whole
  have hEmpty : ∀ fileId, empty.file? fileId = none := fun fileId => Table.find?_empty fileId
  constructor
  · show (empty.compileAll first).diagnostics ++ (empty.compileAll second).diagnostics =
      whole.diagnostics
    simp only [whole, diagnostics_compileAll, List.flatMap_append]
    rfl
  · intro fileId
    have hWhole : whole.file? fileId = (((first ++ second).filter fun file =>
        file.fileId = fileId).getLast?).map empty.analysis := by
      rw [file?_compileAll, hEmpty, Option.or_none]
    refine ⟨?_, hWhole⟩
    rw [hWhole, file?_merge, file?_compileAll, file?_compileAll, hEmpty, Option.or_none,
      Option.or_none, List.filter_append, List.getLast?_append, Option.map_or]

end Compiler

end ComponentAnalysis
