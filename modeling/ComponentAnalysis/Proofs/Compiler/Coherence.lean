import ComponentAnalysis.Compiler.Recorder
import ComponentAnalysis.Proofs.Validation.Composition

/-! What the compilation of a file comes to when its hooks only look on. Structural errors end it
early and leave nothing but themselves; otherwise the file is analyzed. The outcome, the
diagnostics, the hooks called on the way and what the compiler keeps agree on which of the two it
was. -/
namespace ComponentAnalysis

variable {Ast State : Type}

/-- A call of a hook with what the hook is shown. -/
inductive HookCall (Ast : Type) where
  | options (options : CompilerOptions)
  | file (stage : Stage) (file : FileAnalysis Ast)

namespace Hooks

/-- Hooks that look at files and leave them as they are. -/
def Observes (hooks : Hooks Ast State) : Prop :=
  ∀ stage file state, (hooks.onFile stage file state).1 = file

/-- The state that a call leaves hooks in. -/
def after (hooks : Hooks Ast State) (state : State) : HookCall Ast → State
  | .options options => hooks.onOptions options state
  | .file stage file => (hooks.onFile stage file state).2

theorem Observes.onFile_eq {hooks : Hooks Ast State} (h : hooks.Observes) (stage : Stage)
    (file : FileAnalysis Ast) (state : State) :
    hooks.onFile stage file state = (file, hooks.after state (.file stage file)) :=
  Prod.ext (h stage file state) rfl

end Hooks

namespace AnalysisInput

variable (input : AnalysisInput Ast) (file : FileAnalysis Ast)

/-- Adding a component changes the components, the imports and the styles of a file only. -/
theorem addComponent_frame (declaration : ComponentDeclaration) :
    ∃ components imports styles,
      input.addComponent file declaration = { file with components, imports, styles } := by
  unfold addComponent
  split
  · exact ⟨file.components, file.imports, file.styles, rfl⟩
  · exact ⟨_, _, _, rfl⟩

theorem foldl_addComponent_frame (declarations : List ComponentDeclaration) :
    ∃ components imports styles,
      declarations.foldl input.addComponent file = { file with components, imports, styles } := by
  induction declarations generalizing file with
  | nil => exact ⟨file.components, file.imports, file.styles, rfl⟩
  | cons declaration declarations ih =>
      obtain ⟨_, _, _, hStep⟩ := input.addComponent_frame file declaration
      obtain ⟨_, _, _, hRun⟩ := ih (input.addComponent file declaration)
      rw [List.foldl_cons, hRun, hStep]
      exact ⟨_, _, _, rfl⟩

/-- Analysis leaves the identity, the source, the outcome and the diagnostics of a file alone. -/
theorem analyze_frame (declarations : List ComponentDeclaration) :
    ∃ components imports styles,
      input.analyze file declarations = { file with components, imports, styles } := by
  obtain ⟨_, _, _, hRun⟩ :=
    input.foldl_addComponent_frame { file with imports := input.imports } declarations
  rw [analyze, hRun]
  exact ⟨_, _, _, rfl⟩

end AnalysisInput

namespace DiagnosticLog

variable (log : DiagnosticLog) (errors : List SyntaxError)

/-- The errors of a parser are added in order, behind what is in the log. -/
theorem items_foldl_add :
    (errors.foldl (fun log e => log.add .error .structural e.message e.span) log).items =
      log.items ++ errors.map fun e =>
        ⟨log.fileId, .error, .structural, e.message, locate log.source e.span⟩ := by
  induction errors generalizing log with
  | nil => exact (List.append_nil _).symm
  | cons error errors ih =>
      rw [List.foldl_cons, ih, List.map_cons]
      exact List.append_assoc _ _ _

/-- A parser that turns a text away leaves a diagnostic, even if it gives no reason. -/
theorem items_reportErrors_ne_nil : (log.reportErrors errors).items ≠ [] := by
  rw [reportErrors]
  split
  · exact List.append_ne_nil_of_right_ne_nil _ (List.cons_ne_nil _ _)
  · rename_i hSome
    exact fun hNone => hSome (List.isEmpty_iff.mpr hNone)

variable {log errors} in
/-- What a parser reports are structural errors. -/
theorem structural_of_mem_reportErrors (hEmpty : log.items = []) :
    ∀ d ∈ (log.reportErrors errors).items, d.kind = .structural ∧ d.isError = true := by
  have hErrors : ∀ d ∈ (errors.foldl
      (fun log e => log.add .error .structural e.message e.span) log).items,
      d.kind = .structural ∧ d.isError = true := by
    intro d hd
    rw [items_foldl_add, hEmpty, List.nil_append] at hd
    obtain ⟨e, -, rfl⟩ := List.mem_map.mp hd
    exact ⟨rfl, rfl⟩
  rw [reportErrors]
  split
  · intro d hd
    rcases List.mem_append.mp hd with hd | hd
    · exact hErrors d hd
    · rw [List.mem_singleton.mp hd]
      exact ⟨rfl, rfl⟩
  · exact hErrors

end DiagnosticLog

namespace Compiler

variable (compiler : Compiler Ast) (code fileId : String)

/-- The ways in which a file can be compiled, each with the file at its end and the calls of hooks
up to there. -/
inductive Path : FileAnalysis Ast → List (HookCall Ast) → Prop where
  /-- Errors of the parser or structural faults end the compilation. -/
  | rejected {file : FileAnalysis Ast} (diagnostics : List Diagnostic) (hSome : diagnostics ≠ [])
      (hStructural : ∀ d ∈ diagnostics, d.kind = .structural ∧ d.isError = true)
      (hFile : file = { fileId, source := code, diagnostics }) :
      Path file
        [.options compiler.options, .file .bound { fileId, source := code }, .file .validated file]
  /-- The file is checked and analyzed. -/
  | analyzed {file : FileAnalysis Ast} (checked : FileAnalysis Ast)
      (hOutcome : checked.outcome = ⟨true, !checked.diagnostics.any Diagnostic.isError⟩)
      (hKinds : ∀ d ∈ checked.diagnostics, d.kind ≠ .structural) (hFileId : checked.fileId = fileId)
      (hFile : ∃ components imports styles, file = { checked with components, imports, styles }) :
      Path file
        [.options compiler.options, .file .bound { fileId, source := code },
          .file .validated checked, .file .analyzed file]

variable {compiler code fileId} {file : FileAnalysis Ast} {calls : List (HookCall Ast)}

theorem Path.fileId_eq (h : Path compiler code fileId file calls) : file.fileId = fileId := by
  cases h with
  | rejected _ _ _ hFile => rw [hFile]
  | analyzed checked _ _ hFileId hFile =>
      obtain ⟨_, _, _, rfl⟩ := hFile
      exact hFileId

section

variable {hooks : Hooks Ast State} (hObserves : hooks.Observes) (state : State)

include hObserves

variable (compiler code fileId) in
/-- With hooks that only look on, every compilation goes one of the ways, and the hooks end in the
state of the calls on it. -/
theorem exists_path_analyzeFile :
    ∃ calls, Path compiler code fileId (compiler.analyzeFile hooks state code fileId).1 calls ∧
      (compiler.analyzeFile hooks state code fileId).2 = calls.foldl hooks.after state := by
  simp only [analyzeFile, hObserves.onFile_eq]
  split
  · refine ⟨_, Path.rejected _ (DiagnosticLog.items_reportErrors_ne_nil _ _) ?_ rfl, rfl⟩
    exact DiagnosticLog.structural_of_mem_reportErrors rfl
  · rename_i program hParse
    by_cases hRoot : rootFaults program (componentsOf program) = []
    · rw [validate_of_rootFaults_nil hRoot]
      refine ⟨_, Path.analyzed _ rfl ?_ rfl (AnalysisInput.analyze_frame _ _ _), rfl⟩
      intro d hd
      obtain ⟨c, -, hd⟩ := List.mem_flatMap.mp hd
      obtain ⟨fault, hFault, rfl⟩ := mem_componentDiagnostics.mp hd
      exact (faultOf_of_mem hFault).kind_ne_structural
    · rw [validate_of_rootFaults_ne_nil hRoot]
      refine ⟨_, Path.rejected _ (mt List.map_eq_nil_iff.mp hRoot) ?_ rfl, rfl⟩
      intro d hd
      obtain ⟨fault, hFault, rfl⟩ := List.mem_map.mp hd
      refine ⟨?_, decide_eq_true (severity_of_mem_rootFaults hFault)⟩
      rw [rootFaults_eq_flatMap] at hFault
      obtain ⟨t, -, hFault⟩ := List.mem_flatMap.mp hFault
      exact kind_of_mem_rootFaults hFault

theorem fileId_analyzeFile : (compiler.analyzeFile hooks state code fileId).1.fileId = fileId := by
  obtain ⟨calls, hPath, -⟩ := exists_path_analyzeFile compiler code fileId hObserves state
  exact hPath.fileId_eq

end

variable (compiler) in
/-- Storing a file replaces what the compiler has under its id. -/
theorem file?_store (file : FileAnalysis Ast) (other : String) :
    (compiler.store file).file? other =
      if other = file.fileId then some file else compiler.file? other :=
  Table.find?_insert compiler.files file.fileId other file

end Compiler

/-- Hooks that record what they see and make no changes. -/
def watcher : Hooks Unit (List CompilerEvent) := recorder fun _ => []

end ComponentAnalysis
