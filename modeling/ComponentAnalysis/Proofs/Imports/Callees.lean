import ComponentAnalysis.Imports
import ComponentAnalysis.Proofs.Table

/-! Which names construct refs and reactive objects, in terms of the import specifiers of a file.
The analysis turns a table from items to local names around, and reads tables in whatever order they
list their entries; with distinct local names the order does not matter. -/
namespace ComponentAnalysis

namespace ImportedName

/-- A name for an item that is imported by its name from the module of the constructors. -/
def IsItem (s : ImportedName) (item : String) : Prop :=
  s.record.source = reactivityModule ∧ s.imported = some item

/-- The item that a name stands for, with the name. -/
def alias? (s : ImportedName) : Option (String × String) :=
  if s.record.source = reactivityModule then s.imported.map fun item => (item, s.localName)
  else none

/-- A specifier names an item if it imports that item from the module of the constructors. -/
theorem alias?_eq_some_iff {s : ImportedName} {item name : String} :
    s.alias? = some (item, name) ↔ s.IsItem item ∧ s.localName = name := by
  rw [alias?, IsItem, Option.ite_none_right_eq_some, Option.map_eq_some_iff]
  simp only [Prod.mk.injEq]
  grind

end ImportedName

namespace Imports

/-- The local names that the import declarations of a program bind, in order. -/
def specifiers (program : List Tree) : List ImportedName := program.flatMap Tree.importedNames

/-- A specifier adds its record, and its name if it names an item. -/
theorem add_eq (imports : Imports) (s : ImportedName) :
    imports.add s = ⟨imports.records.insert s.localName s.record,
      imports.aliases.insertAll s.alias?.toList⟩ := by
  rw [add, ImportedName.alias?]
  cases s.imported with
  | none => simp [Table.insertAll]
  | some item =>
      by_cases hModule : s.record.source = reactivityModule <;> simp [hModule, Table.insertAll]

/-- Several specifiers are added one after the other, later ones over earlier ones. -/
theorem foldl_add (imports : Imports) (ss : List ImportedName) :
    ss.foldl add imports = ⟨imports.records.insertAll (ss.map fun s => (s.localName, s.record)),
      imports.aliases.insertAll (ss.filterMap ImportedName.alias?)⟩ := by
  induction ss generalizing imports with
  | nil => rfl
  | cons s ss ih =>
      rw [List.foldl_cons, ih, add_eq, List.map_cons]
      congr 1
      rw [Table.insertAll, Table.insertAll, Table.insertAll, ← List.foldl_append]
      congr 1
      cases hAlias : s.alias? <;> simp [hAlias]

section

variable (program : List Tree)

/-- The record of a name is that of its last specifier. -/
theorem find?_records (name : String) :
    (ofProgram program).records.find? name =
      lastOf? ((specifiers program).map fun s => (s.localName, s.record)) name := by
  rw [ofProgram, foldl_add]
  exact Table.find?_ofList _ name

/-- The specifier that imports an item last gives its alias. -/
theorem find?_aliases (item : String) :
    (ofProgram program).aliases.find? item =
      lastOf? ((specifiers program).filterMap ImportedName.alias?) item := by
  rw [ofProgram, foldl_add]
  exact Table.find?_ofList _ item

variable {program}

/-- The name of an item comes from a specifier. -/
theorem exists_of_alias {item name : String}
    (h : (ofProgram program).aliases.find? item = some name) :
    ∃ s ∈ specifiers program, s.IsItem item ∧ s.localName = name := by
  rw [find?_aliases] at h
  obtain ⟨s, hs, hAlias⟩ := List.mem_filterMap.mp (mem_of_lastOf? h)
  exact ⟨s, hs, ImportedName.alias?_eq_some_iff.mp hAlias⟩

/-- An item has the name of its last specifier. -/
theorem alias_of_last {before after : List ImportedName} {s : ImportedName} {item : String}
    (hSplit : specifiers program = before ++ s :: after) (hItem : s.IsItem item)
    (hLast : ∀ s' ∈ after, ¬ s'.IsItem item) :
    (ofProgram program).aliases.find? item = some s.localName := by
  have hAlias : s.alias? = some (item, s.localName) :=
    ImportedName.alias?_eq_some_iff.mpr ⟨hItem, rfl⟩
  have hAfter : lastOf? (after.filterMap ImportedName.alias?) item = none := by
    refine lastOf?_eq_none fun name hMem => ?_
    obtain ⟨s', hs', hAlias'⟩ := List.mem_filterMap.mp hMem
    exact hLast s' hs' (ImportedName.alias?_eq_some_iff.mp hAlias').1
  rw [find?_aliases, hSplit, List.filterMap_append, List.filterMap_cons_some hAlias,
    List.append_cons, lastOf?_append, hAfter, Option.none_or, lastOf?_append, lastOf?_singleton,
    if_pos rfl, Option.some_or]

end

/-! The constructors, read off tables that list their entries in some order. -/

/-- The local names of constructors among several aliases. -/
def constructors (aliases : List (String × String)) : List (String × ReactiveCall) :=
  aliases.filterMap fun (item, name) => (ReactiveCall.ofItem? item).map fun call => (name, call)

/-- The constructors of a file as they come out when its tables list their entries in a given
order. -/
def reactivityBy (imports : Imports) (aliases : List (String × String))
    (records : List (String × ImportRecord)) : Reactivity where
  locals := .ofList (constructors aliases)
  foreign := (records.filter fun (_, r) => r.source ≠ reactivityModule).map Prod.fst
  reactiveAlias := imports.aliases.find? "reactive"

theorem reactivity_eq (imports : Imports) :
    imports.reactivity = imports.reactivityBy imports.aliases.entries imports.records.entries := rfl

/-- Entries as the tables of a file may list them. -/
structure Lists (imports : Imports) (aliases : List (String × String))
    (records : List (String × ImportRecord)) : Prop where
  aliases : aliases.Perm imports.aliases.entries
  records : records.Perm imports.records.entries

/-- The entries in the order of the tables are one such listing. -/
theorem lists_entries (imports : Imports) :
    imports.Lists imports.aliases.entries imports.records.entries := ⟨.refl _, .refl _⟩

section

variable {imports : Imports} {aliases : List (String × String)}
  {records : List (String × ImportRecord)}

/-- A name is listed as a constructor if it is the name of one. -/
theorem mem_constructors {name : String} {call : ReactiveCall} (h : imports.Lists aliases records) :
    (name, call) ∈ constructors aliases ↔
      ∃ item, imports.aliases.find? item = some name ∧ ReactiveCall.ofItem? item = some call := by
  rw [constructors, List.mem_filterMap]
  constructor
  · rintro ⟨⟨item, _⟩, hMem, hEntry⟩
    obtain ⟨_, hCall, hPair⟩ := Option.map_eq_some_iff.mp hEntry
    obtain ⟨rfl, rfl⟩ := Prod.mk.inj hPair
    exact ⟨item, Table.mem_entries_iff.mp (h.aliases.mem_iff.mp hMem), hCall⟩
  · rintro ⟨item, hAlias, hCall⟩
    exact ⟨(item, name), h.aliases.mem_iff.mpr (Table.mem_entries_iff.mpr hAlias),
      Option.map_eq_some_iff.mpr ⟨call, hCall, rfl⟩⟩

/-- A name is listed as foreign if it is imported from another module. -/
theorem mem_foreign {name : String} (h : imports.Lists aliases records) :
    name ∈ (imports.reactivityBy aliases records).foreign ↔
      ∃ r, imports.records.find? name = some r ∧ r.source ≠ reactivityModule := by
  simp only [reactivityBy, List.mem_map, List.mem_filter, decide_eq_true_eq]
  constructor
  · rintro ⟨⟨_, r⟩, ⟨hMem, hSource⟩, rfl⟩
    exact ⟨r, Table.mem_entries_iff.mp (h.records.mem_iff.mp hMem), hSource⟩
  · rintro ⟨r, hRecord, hSource⟩
    exact ⟨(name, r), ⟨h.records.mem_iff.mpr (Table.mem_entries_iff.mpr hRecord), hSource⟩, rfl⟩

end

section

variable {program : List Tree} {aliases : List (String × String)}
  {records : List (String × ImportRecord)}
  (hDistinct : ((specifiers program).map ImportedName.localName).Nodup)

include hDistinct

/-- With distinct local names a name has one specifier. -/
theorem eq_of_localName {s s' : ImportedName} (hs : s ∈ specifiers program)
    (hs' : s' ∈ specifiers program) (hName : s.localName = s'.localName) : s = s' :=
  List.inj_on_of_nodup_map hDistinct hs hs' hName

theorem record_eq_some_iff {name : String} {r : ImportRecord} :
    (ofProgram program).records.find? name = some r ↔
      ∃ s ∈ specifiers program, s.localName = name ∧ s.record = r := by
  rw [find?_records, lastOf?_eq_some_iff]
  · simp only [List.mem_map, Prod.mk.injEq]
  · intro r r' hr hr'
    obtain ⟨s, hs, hEntry⟩ := List.mem_map.mp hr
    obtain ⟨s', hs', hEntry'⟩ := List.mem_map.mp hr'
    obtain ⟨hName, rfl⟩ := Prod.mk.inj hEntry
    obtain ⟨hName', rfl⟩ := Prod.mk.inj hEntry'
    rw [eq_of_localName hDistinct hs hs' (hName.trans hName'.symm)]

/-- A name stands for one item at most, so the order in which aliases are read does not matter. -/
theorem find?_locals {name : String} {call : ReactiveCall}
    (hLists : (ofProgram program).Lists aliases records) :
    ((ofProgram program).reactivityBy aliases records).locals.find? name = some call ↔
      ∃ item, (ofProgram program).aliases.find? item = some name ∧
        ReactiveCall.ofItem? item = some call := by
  rw [← mem_constructors hLists, reactivityBy, Table.find?_ofList, lastOf?_eq_some_iff]
  intro call call' hCall hCall'
  obtain ⟨item, hAlias, hCall⟩ := (mem_constructors hLists).mp hCall
  obtain ⟨item', hAlias', hCall'⟩ := (mem_constructors hLists).mp hCall'
  obtain ⟨s, hs, hItem, hName⟩ := exists_of_alias hAlias
  obtain ⟨s', hs', hItem', hName'⟩ := exists_of_alias hAlias'
  obtain rfl := eq_of_localName hDistinct hs hs' (hName.trans hName'.symm)
  obtain rfl : item = item' := Option.some.inj (hItem.2.symm.trans hItem'.2)
  exact Option.some.inj (hCall.symm.trans hCall')

/-- A name is foreign if the specifier that binds it is. -/
theorem contains_foreign_iff {name : String}
    (hLists : (ofProgram program).Lists aliases records) :
    ((ofProgram program).reactivityBy aliases records).foreign.contains name = true ↔
      ∃ s ∈ specifiers program, s.localName = name ∧ s.record.source ≠ reactivityModule := by
  rw [List.contains_iff_mem, mem_foreign hLists]
  simp only [record_eq_some_iff hDistinct]
  constructor
  · rintro ⟨_, ⟨s, hs, hName, rfl⟩, hSource⟩
    exact ⟨s, hs, hName, hSource⟩
  · rintro ⟨s, hs, hName, hSource⟩
    exact ⟨s.record, ⟨s, hs, hName, rfl⟩, hSource⟩

theorem callee?_of_alias {item name : String} {call : ReactiveCall}
    (hAlias : (ofProgram program).aliases.find? item = some name)
    (hItem : ReactiveCall.ofItem? item = some call) :
    (ofProgram program).reactivity.callee? name = some call := by
  have hLocal := (find?_locals hDistinct (lists_entries _)).mpr ⟨item, hAlias, hItem⟩
  rw [reactivity_eq, Reactivity.callee?, hLocal]

/-- A name that is the alias of no constructor is looked up among the names from other modules. -/
theorem callee?_of_no_alias {name : String}
    (hNone : ∀ item, (ofProgram program).aliases.find? item = some name →
      ReactiveCall.ofItem? item = none) :
    (ofProgram program).reactivity.callee? name =
      if ∃ s ∈ specifiers program, s.localName = name ∧ s.record.source ≠ reactivityModule
      then none else ReactiveCall.ofItem? name := by
  have hLocal : (ofProgram program).reactivity.locals.find? name = none :=
    Option.eq_none_iff_forall_ne_some.mpr fun call hCall => by
      obtain ⟨item, hAlias, hItem⟩ := (find?_locals hDistinct (lists_entries _)).mp hCall
      rw [hNone item hAlias] at hItem
      cases hItem
  rw [Reactivity.callee?, hLocal]
  exact if_congr (contains_foreign_iff hDistinct (lists_entries _)) rfl rfl

/-- The order in which the tables list their entries makes no difference to a callee. -/
theorem callee?_reactivityBy (hLists : (ofProgram program).Lists aliases records) (name : String) :
    ((ofProgram program).reactivityBy aliases records).callee? name =
      (ofProgram program).reactivity.callee? name := by
  have hLocals : ((ofProgram program).reactivityBy aliases records).locals.find? name =
      (ofProgram program).reactivity.locals.find? name :=
    Option.ext fun call => (find?_locals hDistinct hLists).trans
      (find?_locals hDistinct (lists_entries _)).symm
  have hForeign : ((ofProgram program).reactivityBy aliases records).foreign.contains name =
      (ofProgram program).reactivity.foreign.contains name :=
    Bool.eq_iff_iff.mpr <| (contains_foreign_iff hDistinct hLists).trans
      (contains_foreign_iff hDistinct (lists_entries _)).symm
  rw [Reactivity.callee?, Reactivity.callee?, hLocals, hForeign]

end

/-- How the callees of a program are classified by what its import specifiers say. -/
structure ClassifiesCallees (program : List Tree) : Prop where
  /-- The local name that imports a constructor last stands for it. -/
  constructs : ∀ before s after item call, specifiers program = before ++ s :: after →
    s.IsItem item → (∀ s' ∈ after, ¬ s'.IsItem item) → ReactiveCall.ofItem? item = some call →
    (ofProgram program).reactivity.callee? s.localName = some call
  /-- A name from another module constructs nothing. -/
  elsewhere : ∀ s ∈ specifiers program, s.record.source ≠ reactivityModule →
    (ofProgram program).reactivity.callee? s.localName = none
  /-- A name that is not imported, or is imported from the module of the constructors as anything
  but one of them, stands for itself. -/
  itself : ∀ name, (∀ s ∈ specifiers program, s.localName = name →
      s.record.source = reactivityModule ∧ ∀ item, s.imported = some item →
        ReactiveCall.ofItem? item = none) →
    (ofProgram program).reactivity.callee? name = ReactiveCall.ofItem? name
  /-- The tables may list their entries in any order. -/
  anyOrder : ∀ aliases records, (ofProgram program).Lists aliases records → ∀ name,
    ((ofProgram program).reactivityBy aliases records).callee? name =
      (ofProgram program).reactivity.callee? name

/-- Callees are classified by the imports wherever local names are distinct. -/
theorem classifiesCallees {program : List Tree}
    (hDistinct : ((specifiers program).map ImportedName.localName).Nodup) :
    ClassifiesCallees program where
  constructs _ _ _ _ _ hSplit hItem hLast hCall :=
    callee?_of_alias hDistinct (alias_of_last hSplit hItem hLast) hCall
  elsewhere s hs hSource := by
    rw [callee?_of_no_alias hDistinct, if_pos ⟨s, hs, rfl, hSource⟩]
    intro item hAlias
    obtain ⟨s', hs', hItem, hName⟩ := exists_of_alias hAlias
    obtain rfl := eq_of_localName hDistinct hs hs' hName.symm
    exact absurd hItem.1 hSource
  itself name hPlain := by
    rw [callee?_of_no_alias hDistinct, if_neg]
    · rintro ⟨s, hs, hName, hSource⟩
      exact hSource (hPlain s hs hName).1
    · intro item hAlias
      obtain ⟨s, hs, hItem, hName⟩ := exists_of_alias hAlias
      exact (hPlain s hs hName).2 item hItem.2
  anyOrder _ _ hLists name := callee?_reactivityBy hDistinct hLists name

/-- The tree of `import { ref as shallowReactive, nextTick } from 'vue'` and
`import { computed } from 'lib'`. -/
def aliasedImports : List Tree :=
  [.node (.importDeclaration false) ⟨0, 54⟩
      [.node (.importNamed false) ⟨9, 31⟩
          [.node (.name "ref") ⟨9, 12⟩ [], .node (.binding "shallowReactive") ⟨16, 31⟩ []],
        .node (.importNamed false) ⟨33, 41⟩
          [.node (.name "nextTick") ⟨33, 41⟩ [], .node (.binding "nextTick") ⟨33, 41⟩ []],
        .node (.string "vue") ⟨49, 54⟩ []],
    .node (.importDeclaration false) ⟨55, 85⟩
      [.node (.importNamed false) ⟨64, 72⟩
          [.node (.name "computed") ⟨64, 72⟩ [], .node (.binding "computed") ⟨64, 72⟩ []],
        .node (.string "lib") ⟨80, 85⟩ []]]

/-- Imports of constructors under other names, and of other items under the names of constructors.
-/
theorem classifiesCallees_aliased :
    ((specifiers aliasedImports).map ImportedName.localName).Nodup ∧
      ClassifiesCallees aliasedImports ∧
      ["shallowReactive", "nextTick", "computed", "customRef"].map
          (ofProgram aliasedImports).reactivity.callee? = [some .ref, none, none, some .ref] :=
  ⟨by decide, classifiesCallees (by decide), by decide⟩

/-- The tree of `import reactive, { nextTick as ref } from 'vue'`. -/
def renamedImports : List Tree :=
  [.node (.importDeclaration false) ⟨0, 47⟩
    [.node .importDefault ⟨7, 15⟩ [.node (.binding "reactive") ⟨7, 15⟩ []],
      .node (.importNamed false) ⟨19, 34⟩
        [.node (.name "nextTick") ⟨19, 27⟩ [], .node (.binding "ref") ⟨31, 34⟩ []],
      .node (.string "vue") ⟨42, 47⟩ []]]

/-- A name imported from the module of the constructors does not always construct what its item
does, and the default item may construct something: both stand for themselves. -/
theorem not_classifiesByItem_renamed :
    ((specifiers renamedImports).map ImportedName.localName).Nodup ∧
      (¬ ∀ s ∈ specifiers renamedImports, ∀ item, s.IsItem item →
        (ofProgram renamedImports).reactivity.callee? s.localName =
          ReactiveCall.ofItem? item) ∧
      ¬ ∀ s ∈ specifiers renamedImports, s.imported = none →
        (ofProgram renamedImports).reactivity.callee? s.localName = none := by
  refine ⟨by decide, fun h => ?_, fun h => ?_⟩
  · have hRenamed := h ⟨"ref", some "nextTick", { source := "vue" }⟩ (by decide) "nextTick"
      ⟨rfl, rfl⟩
    revert hRenamed
    decide
  · have hDefault := h ⟨"reactive", none, { source := "vue" }⟩ (by decide) rfl
    revert hDefault
    decide

end Imports

end ComponentAnalysis
