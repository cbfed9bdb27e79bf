import ComponentAnalysis.Proofs.Validation.FileOrder

/-! Marks in a log of diagnostics. A mark is a number of diagnostics, so sorting moves diagnostics
under it. Sorting behind a mark only permutes what stands behind the mark, and therefore a mark says
the same of a log and of the diagnostics in the order in which they were raised, as long as no sort
reaches before the mark. -/
namespace ComponentAnalysis

/-- Two lists of diagnostics that a mark does not tell apart: they are the same before the mark and,
but for the order, behind it. -/
structure AgreeAt (mark : Nat) (ds raised : List Diagnostic) : Prop where
  take : ds.take mark = raised.take mark
  drop : (ds.drop mark).Perm (raised.drop mark)

namespace AgreeAt

variable {m mark : Nat} {ds ds' raised : List Diagnostic}

theorem refl : AgreeAt mark ds ds := ⟨rfl, .rfl⟩

theorem trans (h : AgreeAt mark ds ds') (h' : AgreeAt mark ds' raised) : AgreeAt mark ds raised :=
  ⟨h.take.trans h'.take, h.drop.trans h'.drop⟩

/-- Lists that agree at a mark hold the same diagnostics. -/
theorem perm (h : AgreeAt mark ds raised) : ds.Perm raised := by
  rw [← List.take_append_drop mark ds, ← List.take_append_drop mark raised, h.take]
  exact h.drop.append_left _

theorem length_eq (h : AgreeAt mark ds raised) : ds.length = raised.length := h.perm.length_eq

/-- What stands behind a mark, cut at a later mark. -/
theorem drop_eq_append (hMark : m ≤ mark) (ds : List Diagnostic) :
    ds.drop m = (ds.take mark).drop m ++ ds.drop mark := by
  calc ds.drop m
      = (ds.drop m).take (mark - m) ++ (ds.drop m).drop (mark - m) :=
        (List.take_append_drop ..).symm
    _ = (ds.take mark).drop m ++ ds.drop mark := by
        rw [List.drop_drop, Nat.add_sub_cancel' hMark, List.drop_take]

/-- A mark tells no more than a later one. -/
theorem mono (h : AgreeAt mark ds raised) (hMark : m ≤ mark) : AgreeAt m ds raised where
  take := by
    rw [← Nat.min_eq_left hMark, ← List.take_take, h.take, List.take_take]
  drop := by
    rw [drop_eq_append hMark ds, drop_eq_append hMark raised, h.take]
    exact h.drop.append_left _

/-- What is added behind both lists does not matter, wherever the mark is. -/
theorem append (h : AgreeAt mark ds raised) (added : List Diagnostic) :
    AgreeAt mark (ds ++ added) (raised ++ added) where
  take := by rw [List.take_append, List.take_append, h.take, h.length_eq]
  drop := by
    rw [List.drop_append, List.drop_append, h.length_eq]
    exact h.drop.append_right _

/-- Behind the mark, either both lists have an error or neither has. -/
theorem any_isError (h : AgreeAt mark ds raised) :
    (ds.drop mark).any Diagnostic.isError = (raised.drop mark).any Diagnostic.isError :=
  h.drop.any_eq

end AgreeAt

namespace DiagnosticLog

section

variable (log : DiagnosticLog) (mark : Nat)

@[simp] theorem take_sortSince :
    (log.sortSince mark).items.take mark = log.items.take mark := by
  rcases Nat.le_total mark log.items.length with hMark | hMark
  · have hLength : mark = (log.items.take mark).length := by rw [List.length_take_of_le hMark]
    rw [sortSince, List.take_append_of_le_length hLength.le]
    exact List.take_of_length_le hLength.ge
  · simp [sortSince, List.drop_of_length_le hMark, List.take_of_length_le hMark]

@[simp] theorem drop_sortSince :
    (log.sortSince mark).items.drop mark =
      (log.items.drop mark).mergeSort fun a b => a.location.start ≤ b.location.start := by
  rcases Nat.le_total mark log.items.length with hMark | hMark
  · exact List.drop_left' (List.length_take_of_le hMark)
  · simp [sortSince, List.drop_of_length_le hMark, List.take_of_length_le hMark]

/-- Sorting behind a mark is not seen by the mark. -/
theorem agreeAt_sortSince : AgreeAt mark (log.sortSince mark).items log.items where
  take := log.take_sortSince mark
  drop := by
    rw [drop_sortSince]
    exact List.mergeSort_perm _ _

/-- A second sort behind the same mark changes nothing. -/
theorem sortSince_sortSince : (log.sortSince mark).sortSince mark = log.sortSince mark := by
  have hSorted : ((log.items.drop mark).mergeSort
      fun a b => a.location.start ≤ b.location.start).Pairwise
      fun a b => decide (a.location.start ≤ b.location.start) = true :=
    (inFileOrder_mergeSort _).sorted.imp decide_eq_true
  rw [sortSince, take_sortSince, drop_sortSince, List.mergeSort_of_pairwise hSorted]
  rfl

/-- What sorting behind a mark does to a log and what it leaves as it is. The mark may lie behind
the last diagnostic. -/
structure SortsSafely : Prop where
  kept : (log.sortSince mark).items.take (min mark log.size) =
    log.items.take (min mark log.size)
  ordered : InFileOrder (log.items.drop (min mark log.size))
    ((log.sortSince mark).items.drop (min mark log.size))
  perm : ((log.sortSince mark).items.drop (min mark log.size)).Perm
    (log.items.drop (min mark log.size))
  idempotent : (log.sortSince mark).sortSince mark = log.sortSince mark
  size : (log.sortSince mark).size = log.size
  errorCount : (log.sortSince mark).errorCount = log.errorCount
  hasErrorsSince : ∀ m ≤ mark, (log.sortSince mark).hasErrorsSince m = log.hasErrorsSince m

/-- Every log may be sorted behind every mark, one behind its end included. -/
theorem sortsSafely : log.SortsSafely mark := by
  have hAgree := log.agreeAt_sortSince mark
  have hSize : (log.sortSince mark).items.length = log.size := hAgree.length_eq
  have hTake : ∀ ds : List Diagnostic, ds.length = log.size →
      ds.take (min mark log.size) = ds.take mark :=
    fun ds hLength => by rw [← hLength, ← List.take_eq_take_min]
  have hDrop : ∀ ds : List Diagnostic, ds.length = log.size →
      ds.drop (min mark log.size) = ds.drop mark :=
    fun ds hLength => by rw [← hLength, ← List.drop_eq_drop_min]
  refine ⟨?_, ?_, ?_, log.sortSince_sortSince mark, hSize, hAgree.perm.countP_eq _, ?_⟩
  · rw [hTake _ hSize, hTake _ rfl, take_sortSince]
  · rw [hDrop _ hSize, hDrop _ rfl, drop_sortSince]
    exact inFileOrder_mergeSort _
  · rw [hDrop _ hSize, hDrop _ rfl]
    exact hAgree.drop
  · intro m hm
    exact (hAgree.mono hm).any_isError

end

end DiagnosticLog

/-- A call that changes a log. -/
inductive LogCall where
  | error (kind : DiagnosticKind) (message : String) (span : Span)
  | warn (kind : DiagnosticKind) (message : String) (span : Span)
  | sortSince (mark : Nat)
  deriving DecidableEq, Repr

namespace DiagnosticLog

def call (log : DiagnosticLog) : LogCall → DiagnosticLog
  | .error kind message span => log.add .error kind message span
  | .warn kind message span => log.add .warning kind message span
  | .sortSince mark => log.sortSince mark

def run (log : DiagnosticLog) (calls : List LogCall) : DiagnosticLog := calls.foldl call log

/-- The diagnostic that a call raises, if it raises one. -/
def raised? (log : DiagnosticLog) : LogCall → Option Diagnostic
  | .error kind message span =>
    some ⟨log.fileId, .error, kind, message, locate log.source span⟩
  | .warn kind message span =>
    some ⟨log.fileId, .warning, kind, message, locate log.source span⟩
  | .sortSince _ => none

/-- The diagnostics of a log and those that calls add to it, in the order in which they are raised.
-/
def raisedBy (log : DiagnosticLog) (calls : List LogCall) : List Diagnostic :=
  log.items ++ calls.filterMap log.raised?

section

variable (log : DiagnosticLog)

/-- Calls in sequence run one after the other. -/
theorem run_append (calls more : List LogCall) :
    log.run (calls ++ more) = (log.run calls).run more := List.foldl_append

/-- What a call raises depends on the file and its source only, which no call changes. -/
theorem raised?_call (first : LogCall) : (log.call first).raised? = log.raised? := by
  funext second
  cases first <;> cases second <;> rfl

/-- A mark before which no call sorts is not told by a call. -/
theorem agreeAt_call {mark : Nat} {raised : List Diagnostic} (call : LogCall)
    (hMark : ∀ sorted, call = .sortSince sorted → mark ≤ sorted)
    (h : AgreeAt mark log.items raised) :
    AgreeAt mark (log.call call).items (raised ++ (log.raised? call).toList) := by
  cases call with
  | error kind message span => exact h.append _
  | warn kind message span => exact h.append _
  | sortSince sorted =>
      have hSorted := (log.agreeAt_sortSince sorted).mono (hMark sorted rfl)
      rw [raised?, Option.toList_none, List.append_nil]
      exact hSorted.trans h

/-- A mark before which no call sorts is told by none of the calls: the log that they make agrees
with what was raised. -/
theorem agreeAt_run {mark : Nat} {raised : List Diagnostic} (calls : List LogCall)
    (hMarks : ∀ sorted, .sortSince sorted ∈ calls → mark ≤ sorted)
    (h : AgreeAt mark log.items raised) :
    AgreeAt mark (log.run calls).items (raised ++ calls.filterMap log.raised?) := by
  induction calls generalizing log raised with
  | nil =>
      rw [List.filterMap_nil, List.append_nil]
      exact h
  | cons call calls ih =>
      have hFirst := log.agreeAt_call call
        (fun sorted hCall => hMarks sorted (hCall ▸ List.mem_cons_self)) h
      have hRest := ih (log.call call)
        (fun sorted hSorted => hMarks sorted (List.mem_cons_of_mem call hSorted)) hFirst
      rw [raised?_call, List.append_assoc] at hRest
      rw [List.filterMap_cons]
      cases hRaised : log.raised? call <;> rw [hRaised] at hRest <;> exact hRest

/-- Errors behind a mark are those at the positions from it on. -/
theorem any_isError_drop_iff {mark : Nat} {raised : List Diagnostic} :
    (raised.drop mark).any Diagnostic.isError = true ↔
      ∃ i d, mark ≤ i ∧ raised[i]? = some d ∧ d.severity = .error := by
  rw [List.any_eq_true]
  simp only [List.mem_iff_getElem?, List.getElem?_drop, Diagnostic.isError, decide_eq_true_eq]
  constructor
  · rintro ⟨d, ⟨i, hAt⟩, hError⟩
    exact ⟨mark + i, d, Nat.le_add_right _ _, hAt, hError⟩
  · rintro ⟨i, d, hMark, hAt, hError⟩
    refine ⟨d, ⟨i - mark, ?_⟩, hError⟩
    rw [Nat.add_sub_cancel' hMark]
    exact hAt

/-- A mark asks for the errors that were raised behind it, as long as no sort reaches before it. -/
theorem hasErrorsSince_run_iff {mark : Nat} {calls : List LogCall}
    (hMarks : ∀ sorted, .sortSince sorted ∈ calls → mark ≤ sorted) :
    (log.run calls).hasErrorsSince mark = true ↔
      ∃ i d, mark ≤ i ∧ (log.raisedBy calls)[i]? = some d ∧ d.severity = .error := by
  rw [hasErrorsSince, (log.agreeAt_run calls hMarks AgreeAt.refl).any_isError]
  exact any_isError_drop_iff

/-- Sorting is safe at every mark, and a mark keeps its meaning: after any calls of which none sorts
before the mark, there is an error since the mark exactly if an error was raised behind as many
diagnostics as the mark says. -/
theorem marks_keepMeaning :
    (∀ mark, log.SortsSafely mark) ∧
      ∀ calls mark, (∀ sorted, LogCall.sortSince sorted ∈ calls → mark ≤ sorted) →
        ((log.run calls).hasErrorsSince mark = true ↔
          ∃ i d, mark ≤ i ∧ (log.raisedBy calls)[i]? = some d ∧ d.severity = .error) :=
  ⟨log.sortsSafely, fun _ _ hMarks => log.hasErrorsSince_run_iff hMarks⟩

end

def letterLog : DiagnosticLog where
  fileId := "letters"
  source := "abcdefgh"

/-- An error, and behind it a later and an earlier place, sorted behind the first. The last sort is
one behind the end. -/
def letterCalls : List LogCall :=
  [.error .structural "first" ⟨6, 7⟩, .error .hoisting "late" ⟨5, 6⟩,
    .warn .macroUsage "early" ⟨1, 2⟩, .sortSince 1, .sortSince 9]

/-- Two sorts, of which the second is behind the end, and an error that moves behind the mark. -/
theorem marks_keepMeaning_letters :
    (letterLog.run letterCalls).items.map Diagnostic.message = ["first", "early", "late"] ∧
      (∀ sorted, LogCall.sortSince sorted ∈ letterCalls → 1 ≤ sorted) ∧
      (letterLog.run letterCalls).hasErrorsSince 1 = true :=
  have hMessages :
      (letterLog.run letterCalls).items.map Diagnostic.message = ["first", "early", "late"] := by
    simp [letterLog, letterCalls, run, call, add, sortSince, locate, List.mergeSort,
      List.MergeSort.Internal.splitInTwo]
  have hMarks : ∀ sorted, LogCall.sortSince sorted ∈ letterCalls → 1 ≤ sorted := by
    simp [letterCalls]
  ⟨hMessages, hMarks,
    ((marks_keepMeaning letterLog).2 letterCalls 1 hMarks).mpr ⟨1, _, Nat.le_refl 1, rfl, rfl⟩⟩

-- A sort that reaches before a mark may bring behind it an error that was raised before it.
example : (letterLog.run [.error .hoisting "late" ⟨5, 6⟩, .warn .macroUsage "early" ⟨1, 2⟩,
    .sortSince 0]).hasErrorsSince 1 = true := by
  simp [letterLog, run, call, add, sortSince, hasErrorsSince, locate, List.mergeSort,
    Diagnostic.isError]

end DiagnosticLog

/-- The call that reports a fault. -/
def LogCall.ofFault (fault : Located) : LogCall :=
  match fault.1.severity with
  | .error => .error fault.1.kind fault.1.message fault.2
  | .warning => .warn fault.1.kind fault.1.message fault.2

namespace DiagnosticLog

/-- Reporting a fault is a call. -/
theorem call_ofFault (log : DiagnosticLog) (fault : Located) :
    log.call (.ofFault fault) = log.report fault := by
  rw [LogCall.ofFault, report]
  cases fault.1.severity <;> rfl

/-- Reporting several faults is several calls. -/
theorem run_ofFault (log : DiagnosticLog) (faults : List Located) :
    log.run (faults.map .ofFault) = log.reportAll faults := by
  rw [run, List.foldl_map, reportAll]
  simp only [call_ofFault]

theorem sortSince_notMem_ofFault (faults : List Located) (mark : Nat) :
    .sortSince mark ∉ faults.map LogCall.ofFault := by
  intro hMem
  obtain ⟨fault, -, hCall⟩ := List.mem_map.mp hMem
  unfold LogCall.ofFault at hCall
  split at hCall <;> cases hCall

end DiagnosticLog

section

variable (program : List Tree) (apis : Reactivity)

/-- The calls that check a component. The last one sorts behind what was in the log before. -/
def componentCalls (log : DiagnosticLog) (c : ComponentDeclaration) : List LogCall :=
  (componentFaults program apis log.source c).map .ofFault ++ [.sortSince log.size]

/-- Checking a component comes to the calls for its faults and a sort behind what was there before.
-/
theorem run_componentCalls (log : DiagnosticLog) (c : ComponentDeclaration) :
    log.run (componentCalls program apis log c) = validateComponent program apis log c := by
  rw [componentCalls, DiagnosticLog.run_append, DiagnosticLog.run_ofFault]
  rfl

variable {program apis} in
theorem eq_of_sortSince_mem_componentCalls {log : DiagnosticLog} {c : ComponentDeclaration}
    {sorted : Nat} (h : .sortSince sorted ∈ componentCalls program apis log c) :
    sorted = log.size := by
  have hLast := (List.mem_append.mp h).resolve_left (DiagnosticLog.sortSince_notMem_ofFault _ _)
  cases List.mem_singleton.mp hLast
  rfl

/-- Checking several components comes to calls, none of which sorts before a mark at the start. -/
theorem exists_calls_foldl {mark : Nat} {log : DiagnosticLog} (hMark : mark ≤ log.size)
    (components : List ComponentDeclaration) :
    ∃ calls, components.foldl (validateComponent program apis) log = log.run calls ∧
      ∀ sorted, .sortSince sorted ∈ calls → mark ≤ sorted := by
  induction components generalizing log with
  | nil => exact ⟨[], rfl, fun _ hMem => nomatch hMem⟩
  | cons c components ih =>
      have hSize : log.size ≤ (validateComponent program apis log c).size := by
        rw [validateComponent_eq, DiagnosticLog.size_append]
        exact Nat.le_add_right _ _
      obtain ⟨calls, hRun, hMarks⟩ := ih (hMark.trans hSize)
      refine ⟨componentCalls program apis log c ++ calls, ?_, fun sorted hMem => ?_⟩
      · rw [List.foldl_cons, hRun, DiagnosticLog.run_append, run_componentCalls]
      · rcases List.mem_append.mp hMem with hMem | hMem
        · rw [eq_of_sortSince_mem_componentCalls hMem]
          exact hMark
        · exact hMarks sorted hMem

/-- Validation is a run of calls that never sort before the mark it starts with. -/
theorem exists_calls_validate (components : List ComponentDeclaration) (log : DiagnosticLog) :
    ∃ calls, (validate program components apis log).2 = log.run calls ∧
      ∀ sorted, .sortSince sorted ∈ calls → log.size ≤ sorted := by
  have hRoot := log.run_ofFault (rootFaults program components)
  have hNoSort := DiagnosticLog.sortSince_notMem_ofFault (rootFaults program components)
  simp only [validate]
  split
  · exact ⟨_, hRoot.symm, fun sorted hMem => absurd hMem (hNoSort sorted)⟩
  · have hSize : log.size ≤ (log.reportAll (rootFaults program components)).size := by
      rw [DiagnosticLog.reportAll_eq, DiagnosticLog.size_append]
      exact Nat.le_add_right _ _
    obtain ⟨calls, hRun, hMarks⟩ := exists_calls_foldl program apis hSize components
    refine ⟨(rootFaults program components).map .ofFault ++ calls, ?_, fun sorted hMem => ?_⟩
    · rw [DiagnosticLog.run_append, hRoot]
      exact hRun
    · exact hMarks sorted ((List.mem_append.mp hMem).resolve_left (hNoSort sorted))

/-- A file passes exactly if no error was raised since the mark that validation starts with. -/
theorem passed_iff_raised (components : List ComponentDeclaration) (log : DiagnosticLog) :
    ∃ calls, (validate program components apis log).2 = log.run calls ∧
      ((validate program components apis log).1.passed = true ↔
        ∀ i d, log.size ≤ i → (log.raisedBy calls)[i]? = some d → d.severity ≠ .error) := by
  have hVerdict : (validate program components apis log).1.passed =
      !(validate program components apis log).2.hasErrorsSince log.size := by
    simp only [validate]
    split
    · rename_i hErrors
      rw [hErrors]
      rfl
    · rfl
  obtain ⟨calls, hRun, hMarks⟩ := exists_calls_validate program apis components log
  refine ⟨calls, hRun, ?_⟩
  rw [hVerdict, hRun, Bool.not_eq_true', ← Bool.not_eq_true, log.hasErrorsSince_run_iff hMarks]
  push Not
  rfl

end

end ComponentAnalysis
