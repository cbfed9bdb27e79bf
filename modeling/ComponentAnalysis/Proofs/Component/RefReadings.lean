import ComponentAnalysis.Proofs.Component.Classification
import ComponentAnalysis.Proofs.Imports.Callees
import ComponentAnalysis.Proofs.Macro.Resolution
import ComponentAnalysis.Proofs.Tree.Returned

/-! Two readings of an initializer: what binds a variable as a ref, and what proves that its value
is none. Both go by the name that a call calls, so they agree unless the name that one takes for the
constructor of reactive objects gives a ref in the other. -/
namespace ComponentAnalysis

namespace Tree

variable {v : Tree} {name : String}

/-- Only calls have the name of a callee. -/
theorem kind_of_calleeName? (h : v.calleeName? = some name) : v.kind = .call := by
  obtain ⟨callee, hCallee, -⟩ := Option.bind_eq_some_iff.mp h
  unfold callee? at hCallee
  split at hCallee
  · rfl
  · cases hCallee

/-- Of a call only its callee can prove that it gives no ref. -/
theorem isNeverRef_iff_of_call (hCall : v.kind = .call) {reactiveName : Option String} :
    v.isNeverRef reactiveName = true ↔
      ∃ name, reactiveName = some name ∧ v.calleeName? = some name := by
  obtain ⟨kind, span, children⟩ := v
  obtain rfl : kind = .call := hCall
  cases reactiveName with
  | none => simp [isNeverRef, isLiteral, Tree.kind]
  | some name => simp [isNeverRef, isLiteral, Tree.kind]

/-- A call of a plain name is a macro if the name is that of a family. -/
theorem macroName?_of_calleeName? (h : v.calleeName? = some name) :
    v.macroName? = MacroName.ofParts? name none := by
  obtain ⟨callee, hCallee, hName⟩ := Option.bind_eq_some_iff.mp h
  obtain ⟨span, children, rfl⟩ := referenceName?_eq_some hName
  rw [macroName?, hCallee]
  rfl

/-- A plain name calls a prop macro if it is the name of the family. -/
theorem callsProp_iff_of_calleeName? (h : v.calleeName? = some name) :
    (∃ call, v.macroName? = some call ∧ call.base = .prop) ↔ name = MacroBase.prop.toString := by
  simp only [macroName?_of_calleeName? h, MacroName.ofParts?_none_eq_some_iff]
  constructor
  · rintro ⟨_, ⟨base, rfl, rfl⟩, rfl⟩
    rfl
  · rintro rfl
    exact ⟨_, ⟨.prop, rfl, rfl⟩, rfl⟩

/-- A value is bound as a ref if it is a prop or made by what is imported as a constructor of refs.
-/
theorem initializerKind_eq_setupRef_iff {apis : Reactivity} :
    initializerKind apis v = .setupRef ↔
      (∃ call, v.macroName? = some call ∧ call.base = .prop) ∨
        ∃ name, v.calleeName? = some name ∧ apis.callee? name = some .ref := by
  have hProp : (v.macroName?.any fun call => call.base = .prop) = true ↔
      ∃ call, v.macroName? = some call ∧ call.base = .prop := by
    simp [Option.any_eq_true]
  rw [← hProp, ← Option.bind_eq_some_iff]
  unfold initializerKind
  split
  · simp_all
  · cases v.calleeName?.bind apis.callee? with
    | none => simp_all
    | some call => cases call <;> simp_all

end Tree

namespace Reactivity

variable {apis : Reactivity}

/-- A value is bound as a ref although it certainly is none. -/
def Contradicts (apis : Reactivity) (value : Tree) : Prop :=
  Tree.initializerKind apis value = .setupRef ∧ value.isNeverRef apis.reactiveName = true

/-- Only the call of a plain name is read in both ways. -/
theorem contradicts_iff {value : Tree} :
    apis.Contradicts value ↔ ∃ name, value.calleeName? = some name ∧
      apis.reactiveName = some name ∧
        (name = MacroBase.prop.toString ∨ apis.callee? name = some .ref) := by
  constructor
  · rintro ⟨hRef, hNever⟩
    have hCases := Tree.initializerKind_eq_setupRef_iff.mp hRef
    have hCall : value.kind = .call := by
      rcases hCases with ⟨call, hMacro, -⟩ | ⟨name, hName, -⟩
      · exact Tree.kind_of_macroName? hMacro
      · exact Tree.kind_of_calleeName? hName
    obtain ⟨name, hReactive, hName⟩ := (Tree.isNeverRef_iff_of_call hCall).mp hNever
    refine ⟨name, hName, hReactive, hCases.imp (Tree.callsProp_iff_of_calleeName? hName).mp ?_⟩
    rintro ⟨other, hOther, hGives⟩
    obtain rfl : name = other := Option.some.inj (hName.symm.trans hOther)
    exact hGives
  · rintro ⟨name, hName, hReactive, hGives⟩
    constructor
    · exact Tree.initializerKind_eq_setupRef_iff.mpr
        (hGives.imp (Tree.callsProp_iff_of_calleeName? hName).mpr fun h => ⟨name, hName, h⟩)
    · exact (Tree.isNeverRef_iff_of_call (Tree.kind_of_calleeName? hName)).mpr
        ⟨name, hReactive, hName⟩

/-- The readings agree: no initializer is read in both ways, and the name that is taken for the
constructor of reactive objects constructs them. -/
structure ReadingsAgree (apis : Reactivity) : Prop where
  values : ∀ e : Tree, ¬ apis.Contradicts e.unwrap
  reactive : ∀ name, apis.reactiveName = some name → apis.callee? name = some .reactive

/-- Calls of every name can be written, so the name of the constructor decides. -/
theorem readingsAgree_iff : apis.ReadingsAgree ↔ ∀ name, apis.reactiveName = some name →
    name ≠ MacroBase.prop.toString ∧ apis.callee? name = some .reactive := by
  constructor
  · intro h name hReactive
    refine ⟨fun hProp => ?_, h.reactive name hReactive⟩
    exact h.values (.node .call {} [.node (.reference name) {} []])
      (contradicts_iff.mpr ⟨name, rfl, hReactive, Or.inl hProp⟩)
  · intro h
    refine ⟨fun e hContradicts => ?_, fun name hReactive => (h name hReactive).2⟩
    obtain ⟨name, -, hReactive, hGives⟩ := contradicts_iff.mp hContradicts
    obtain ⟨hNotProp, hCallee⟩ := h name hReactive
    rcases hGives with hProp | hRef
    · exact hNotProp hProp
    · rw [hCallee] at hRef
      cases hRef

end Reactivity

namespace Imports

/-- A name is the one under which a program imports an item last. -/
def NamesItem (program : List Tree) (name item : String) : Prop :=
  ∃ s, IsLast (fun s => s.IsItem item) (specifiers program) s ∧ s.localName = name

section

variable {program : List Tree}

/-- An imported item has a last import. -/
theorem exists_isLast_of_isItem {s : ImportedName} {item : String} (hs : s ∈ specifiers program)
    (hItem : s.IsItem item) : ∃ last, IsLast (fun s => s.IsItem item) (specifiers program) last :=
  exists_isLast_iff.mpr ⟨s, hs, hItem⟩

/-- The name of an item is that of its last import. -/
theorem alias_eq_some_iff {item name : String} :
    (ofProgram program).aliases.find? item = some name ↔ NamesItem program name item := by
  have hOfLast : ∀ s, IsLast (fun s => s.IsItem item) (specifiers program) s →
      (ofProgram program).aliases.find? item = some s.localName := by
    rintro s ⟨before, after, hSplit, hItem, hLast⟩
    exact alias_of_last hSplit hItem hLast
  constructor
  · intro hAlias
    obtain ⟨s, hs, hItem, -⟩ := exists_of_alias hAlias
    obtain ⟨last, hLast⟩ := exists_isLast_of_isItem hs hItem
    exact ⟨last, hLast, Option.some.inj ((hOfLast last hLast).symm.trans hAlias)⟩
  · rintro ⟨s, hLast, rfl⟩
    exact hOfLast s hLast

/-- It has none if no specifier imports it. -/
theorem alias_eq_none_iff {item : String} :
    (ofProgram program).aliases.find? item = none ↔
      ∀ s ∈ specifiers program, ¬ s.IsItem item := by
  have hSome : (∃ name, (ofProgram program).aliases.find? item = some name) ↔
      ∃ s ∈ specifiers program, s.IsItem item := by
    simp only [alias_eq_some_iff, NamesItem, ← exists_isLast_iff]
    exact ⟨fun ⟨_, s, hLast, _⟩ => ⟨s, hLast⟩, fun ⟨s, hLast⟩ => ⟨_, s, hLast, rfl⟩⟩
  rw [Option.eq_none_iff_forall_ne_some]
  simpa using not_congr hSome

variable (hDistinct : ((specifiers program).map ImportedName.localName).Nodup)

include hDistinct

/-- If local names differ, the name of an item calls that item. -/
theorem callee?_of_namesItem {name item : String} {call : ReactiveCall}
    (h : NamesItem program name item) (hItem : ReactiveCall.ofItem? item = some call) :
    (ofProgram program).reactivity.callee? name = some call :=
  callee?_of_alias hDistinct (alias_eq_some_iff.mpr h) hItem

/-- If `reactive` is not imported by its name, it stands for itself unless the name is imported from
another module. -/
theorem reactiveName_of_not_imported
    (hNone : ∀ s ∈ specifiers program, ¬ s.IsItem "reactive") :
    (ofProgram program).reactivity.reactiveName =
      if ∃ s ∈ specifiers program, s.localName = "reactive" ∧ s.record.source ≠ reactivityModule
      then none else some "reactive" := by
  have hAlias : (ofProgram program).reactivity.reactiveAlias = none := alias_eq_none_iff.mpr hNone
  rw [Reactivity.reactiveName, hAlias]
  exact if_congr (contains_foreign_iff hDistinct (lists_entries _)) rfl rfl

/-- Where `reactive` is imported, its last name constructs reactive objects. -/
theorem readingsAgree_iff_of_imported {name : String} (hName : NamesItem program name "reactive") :
    (ofProgram program).reactivity.ReadingsAgree ↔ name ≠ MacroBase.prop.toString := by
  have hAlias : (ofProgram program).reactivity.reactiveAlias = some name :=
    alias_eq_some_iff.mpr hName
  have hReactive : (ofProgram program).reactivity.reactiveName = some name := by
    rw [Reactivity.reactiveName, hAlias]
  rw [Reactivity.readingsAgree_iff]
  constructor
  · exact fun h => (h name hReactive).1
  · intro hNotProp other hOther
    obtain rfl : name = other := Option.some.inj (hReactive.symm.trans hOther)
    exact ⟨hNotProp, callee?_of_namesItem hDistinct hName (by decide)⟩

/-- Where `reactive` is not imported, the name itself is taken for the constructor, even if it
stands for a constructor of refs. -/
theorem readingsAgree_iff_of_not_imported
    (hNone : ∀ s ∈ specifiers program, ¬ s.IsItem "reactive") :
    (ofProgram program).reactivity.ReadingsAgree ↔
      ∀ item, ReactiveCall.ofItem? item = some .ref → ¬ NamesItem program "reactive" item := by
  have hName := reactiveName_of_not_imported hDistinct hNone
  rw [Reactivity.readingsAgree_iff]
  constructor
  · rintro h item hRef hItem
    have hCallee := callee?_of_namesItem hDistinct hItem hRef
    obtain ⟨s, ⟨before, after, hSplit, hOwn, -⟩, hLocal⟩ := hItem
    have hs : s ∈ specifiers program := by simp [hSplit]
    -- The specifier with the name is one of the constructors' module, so no other module has it.
    rw [if_neg] at hName
    · rw [(h "reactive" hName).2] at hCallee
      cases hCallee
    · rintro ⟨s', hs', hLocal', hSource⟩
      obtain rfl := eq_of_localName hDistinct hs hs' (hLocal.trans hLocal'.symm)
      exact hSource hOwn.1
  · intro hRefs name hReactive
    rw [hName] at hReactive
    obtain ⟨hOwn, hSome⟩ := Option.ite_none_left_eq_some.mp hReactive
    obtain rfl := Option.some.inj hSome
    refine ⟨by decide, ?_⟩
    by_cases hItem : ∃ item call, NamesItem program "reactive" item ∧
        ReactiveCall.ofItem? item = some call
    · obtain ⟨item, call, hItem, hCall⟩ := hItem
      rw [callee?_of_namesItem hDistinct hItem hCall]
      cases call with
      | ref => exact absurd hItem (hRefs item hCall)
      | reactive => rfl
    · rw [callee?_of_no_alias hDistinct, if_neg hOwn]
      · decide
      · intro item hAlias
        refine Option.eq_none_iff_forall_ne_some.mpr fun call hCall => ?_
        exact hItem ⟨item, call, alias_eq_some_iff.mp hAlias, hCall⟩

/-- The readings of a program agree exactly if it neither imports `reactive` under the name of the
prop macros nor, without importing it, a constructor of refs under the name `reactive`. -/
theorem readingsAgree_ofProgram_iff :
    (ofProgram program).reactivity.ReadingsAgree ↔
      ¬ NamesItem program MacroBase.prop.toString "reactive" ∧
        ∀ item, ReactiveCall.ofItem? item = some .ref → NamesItem program "reactive" item →
          ∃ s ∈ specifiers program, s.IsItem "reactive" := by
  by_cases hImported : ∃ s ∈ specifiers program, s.IsItem "reactive"
  · obtain ⟨s, hs, hItem⟩ := hImported
    obtain ⟨last, hLast⟩ := exists_isLast_of_isItem hs hItem
    have hName : NamesItem program last.localName "reactive" := ⟨last, hLast, rfl⟩
    have hOnly : NamesItem program MacroBase.prop.toString "reactive" ↔
        last.localName = MacroBase.prop.toString := by
      rw [← alias_eq_some_iff, alias_eq_some_iff.mpr hName, Option.some.injEq]
    rw [readingsAgree_iff_of_imported hDistinct hName, hOnly]
    exact (and_iff_left fun _ _ _ => ⟨s, hs, hItem⟩).symm
  · have hNone : ∀ s ∈ specifiers program, ¬ s.IsItem "reactive" :=
      fun s hs hItem => hImported ⟨s, hs, hItem⟩
    have hNoName : ¬ NamesItem program MacroBase.prop.toString "reactive" := by
      rintro ⟨s, ⟨before, after, hSplit, hItem, -⟩, -⟩
      exact hNone s (by simp [hSplit]) hItem
    rw [readingsAgree_iff_of_not_imported hDistinct hNone, and_iff_right hNoName]
    simp only [hImported, imp_false]

end

/-- The tree of `import { computed as reactive, reactive as ref } from 'vue'`. -/
def swappedImports : List Tree :=
  [.node (.importDeclaration false) ⟨0, 58⟩
    [.node (.importNamed false) ⟨9, 29⟩
        [.node (.name "computed") ⟨9, 17⟩ [], .node (.binding "reactive") ⟨21, 29⟩ []],
      .node (.importNamed false) ⟨31, 46⟩
        [.node (.name "reactive") ⟨31, 39⟩ [], .node (.binding "ref") ⟨43, 46⟩ []],
      .node (.string "vue") ⟨53, 58⟩ []]]

/-- Names that change places are told apart, as `reactive` is imported. -/
theorem readingsAgree_swapped :
    ((specifiers swappedImports).map ImportedName.localName).Nodup ∧
      (ofProgram swappedImports).reactivity.ReadingsAgree ∧
      ["reactive", "ref"].map (ofProgram swappedImports).reactivity.callee? =
        [some .ref, some .reactive] := by
  refine ⟨by decide, ?_, by decide⟩
  rw [readingsAgree_ofProgram_iff (by decide), ← alias_eq_some_iff]
  exact ⟨by decide, fun _ _ _ => ⟨⟨"ref", some "reactive", { source := "vue" }⟩, by decide,
    rfl, rfl⟩⟩

/-- The tree of `import { ref as reactive } from 'vue'`. -/
def disguisedImports : List Tree :=
  [.node (.importDeclaration false) ⟨0, 37⟩
    [.node (.importNamed false) ⟨9, 24⟩
        [.node (.name "ref") ⟨9, 12⟩ [], .node (.binding "reactive") ⟨16, 24⟩ []],
      .node (.string "vue") ⟨32, 37⟩ []]]

/-- The call `reactive(0)` is bound as a ref, and certainly is none. -/
theorem contradicts_disguised :
    ((specifiers disguisedImports).map ImportedName.localName).Nodup ∧
      (ofProgram disguisedImports).reactivity.Contradicts
        (.node .call ⟨0, 11⟩
          [.node (.reference "reactive") ⟨0, 8⟩ [], .node (.number "0") ⟨9, 10⟩ []]) ∧
      (ofProgram disguisedImports).reactivity.reactiveName = some "reactive" ∧
      (ofProgram disguisedImports).reactivity.callee? "reactive" = some .ref :=
  ⟨by decide, ⟨by decide, by decide⟩, by decide, by decide⟩

end Imports

end ComponentAnalysis
