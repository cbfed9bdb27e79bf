import ComponentAnalysis.Table
import Mathlib.Data.List.Basic
import Mathlib.Data.List.Induction
import Mathlib.Data.List.Nodup

/-! Lists of names with values, and the tables that come out of them. The last entry of a name is
the one that counts. -/
namespace ComponentAnalysis

universe u v
variable {α : Type u} {β : Type v} {entries : List (String × α)} {name : String} {value : α}

/-- The value of the last entry of a name. -/
def lastOf? (entries : List (String × α)) (name : String) : Option α :=
  ((entries.filter fun e => e.1 = name).getLast?).map Prod.snd

/-- Later entries count before earlier ones. -/
theorem lastOf?_append (first second : List (String × α)) (name : String) :
    lastOf? (first ++ second) name = (lastOf? second name).or (lastOf? first name) := by
  rw [lastOf?, List.filter_append, List.getLast?_append, Option.map_or]
  rfl

theorem lastOf?_singleton (entry : String × α) (name : String) :
    lastOf? [entry] name = if entry.1 = name then some entry.2 else none := by
  by_cases hName : entry.1 = name <;> simp [lastOf?, hName]

/-- If all entries have one value, only the names matter. -/
theorem lastOf?_const (names : List String) (value : α) (name : String) :
    lastOf? (names.map fun n => (n, value)) name = if name ∈ names then some value else none := by
  have hSame : ((names.map fun n => (n, value)).filter fun e => e.1 = name) =
      List.replicate (names.count name) (name, value) := by
    rw [List.filter_map]
    have hFilter : names.filter ((fun e => decide (e.1 = name)) ∘ fun n => (n, value)) =
        List.replicate (names.count name) name := by
      rw [← List.filter_beq]
      rfl
    rw [hFilter, List.map_replicate]
  rw [lastOf?, hSame, List.getLast?_replicate]
  by_cases hMem : name ∈ names
  · rw [if_pos hMem, if_neg (Nat.ne_of_gt (List.count_pos_iff.mpr hMem))]
    rfl
  · rw [if_neg hMem, if_pos (List.count_eq_zero.mpr hMem)]
    rfl

/-- When items enter several names each with their value, the last entry of a name has the value of
the last item with the name. -/
theorem lastOf?_flatMap (names : β → List String) (value : β → α) (items : List β) (name : String) :
    lastOf? (items.flatMap fun x => (names x).map fun n => (n, value x)) name =
      ((items.filter fun x => name ∈ names x).getLast?).map value := by
  induction items using List.reverseRecOn with
  | nil => rfl
  | append_singleton items last ih =>
      -- The last item decides if it has the name, and otherwise drops out.
      rw [List.flatMap_append, lastOf?_append, ih, List.flatMap_singleton, lastOf?_const,
        List.filter_append, List.getLast?_append, Option.map_or]
      by_cases hMem : name ∈ names last
      · rw [if_pos hMem, List.filter_cons_of_pos (by simpa using hMem)]
        rfl
      · rw [if_neg hMem, List.filter_cons_of_neg (by simpa using hMem)]
        rfl

/-- What is found is one of the entries. -/
theorem mem_of_lastOf? (h : lastOf? entries name = some value) : (name, value) ∈ entries := by
  obtain ⟨entry, hLast, rfl⟩ := Option.map_eq_some_iff.mp h
  obtain ⟨hMem, hName⟩ := List.mem_filter.mp (List.mem_of_getLast? hLast)
  obtain rfl := of_decide_eq_true hName
  exact hMem

theorem lastOf?_eq_none (h : ∀ value, (name, value) ∉ entries) : lastOf? entries name = none :=
  Option.eq_none_iff_forall_ne_some.mpr fun value hLast => h value (mem_of_lastOf? hLast)

/-- If all entries of a name have one value, the last one is any of them. -/
theorem lastOf?_eq_some_iff
    (hOne : ∀ v v', (name, v) ∈ entries → (name, v') ∈ entries → v = v') :
    lastOf? entries name = some value ↔ (name, value) ∈ entries := by
  refine ⟨mem_of_lastOf?, fun hMem => ?_⟩
  cases hLast : lastOf? entries name with
  | none =>
      have hNone : (entries.filter fun e => e.1 = name) = [] :=
        List.getLast?_eq_none_iff.mp (Option.map_eq_none_iff.mp hLast)
      exact absurd (decide_eq_true rfl) (List.filter_eq_nil_iff.mp hNone _ hMem)
  | some found => rw [hOne found value (mem_of_lastOf? hLast) hMem]

namespace Table

/-- Setting values in order leaves each name with the last value given to it. -/
theorem find?_insertAll (table : Table α) (entries : List (String × α)) (name : String) :
    (table.insertAll entries).find? name = (lastOf? entries name).or (table.find? name) := by
  induction entries generalizing table with
  | nil => rfl
  | cons entry entries ih =>
      have hStep : table.insertAll (entry :: entries) =
          (table.insert entry.1 entry.2).insertAll entries := rfl
      rw [hStep, ih, find?_insert, ← List.singleton_append, lastOf?_append, lastOf?_singleton,
        Option.or_assoc]
      by_cases hName : entry.1 = name
      · rw [if_pos hName.symm, if_pos hName, Option.some_or]
      · rw [if_neg (Ne.symm hName), if_neg hName, Option.none_or]

/-- A table gives for each name the value of its last entry. -/
theorem find?_ofList (entries : List (String × α)) (name : String) :
    (ofList entries).find? name = lastOf? entries name := by
  rw [ofList, find?_insertAll, find?_empty, Option.or_none]

/-! The entries that a table lists. -/

variable {table : Table α}

/-- A table lists an entry for each name that it has a value for. -/
theorem mem_entries_iff : (name, value) ∈ table.entries ↔ table.find? name = some value := by
  constructor
  · intro hMem
    obtain ⟨before, after, hSplit⟩ := List.append_of_mem hMem
    refine List.lookup_eq_some_iff.mpr ⟨before, after, hSplit, fun entry hEntry => ?_⟩
    have hDistinct := table.distinct
    rw [hSplit, List.map_append, List.nodup_append] at hDistinct
    exact bne_iff_ne.mpr (hDistinct.2.2 entry.1 (List.mem_map_of_mem hEntry) name (by simp)).symm
  · intro h
    obtain ⟨before, after, hSplit, -⟩ := List.lookup_eq_some_iff.mp h
    rw [hSplit]
    exact List.mem_append_right _ List.mem_cons_self

/-- A name is found in the entries of a table where the table has it, and nowhere else. -/
theorem lastOf?_entries (table : Table α) (name : String) :
    lastOf? table.entries name = table.find? name := by
  refine Option.ext fun value => ?_
  rw [lastOf?_eq_some_iff, mem_entries_iff]
  intro v v' hv hv'
  exact Option.some.inj ((mem_entries_iff.mp hv).symm.trans (mem_entries_iff.mp hv'))

/-- Taking over another table replaces the values that it has. -/
theorem find?_insertAll_entries (table other : Table α) (name : String) :
    (table.insertAll other.entries).find? name = (other.find? name).or (table.find? name) := by
  rw [find?_insertAll, lastOf?_entries]

/-- A new name comes last. -/
theorem put_of_notMem (h : name ∉ entries.map Prod.fst) :
    put name value entries = entries ++ [(name, value)] := by
  induction entries with
  | nil => rfl
  | cons entry rest ih =>
      rw [List.map_cons, List.mem_cons, not_or] at h
      rw [put, if_neg (Ne.symm h.1), ih h.2, List.cons_append]

/-- Entries of distinct new names come last, in order. -/
theorem entries_insertAll (hDistinct : ((table.entries ++ entries).map Prod.fst).Nodup) :
    (table.insertAll entries).entries = table.entries ++ entries := by
  induction entries generalizing table with
  | nil => exact (List.append_nil _).symm
  | cons entry rest ih =>
      have hNew : entry.1 ∉ table.entries.map Prod.fst := by
        rw [List.map_append, List.nodup_append] at hDistinct
        exact fun hMem => hDistinct.2.2 _ hMem _ (by simp) rfl
      have hInsert : (table.insert entry.1 entry.2).entries = table.entries ++ [entry] :=
        put_of_notMem hNew
      rw [List.append_cons, ← hInsert] at hDistinct
      rw [insertAll, List.foldl_cons, ← insertAll, ih hDistinct, hInsert, ← List.append_cons]

/-- A table of entries with different names lists them as they are given. -/
theorem entries_ofList (hDistinct : (entries.map Prod.fst).Nodup) :
    (ofList entries).entries = entries := by
  rw [ofList, entries_insertAll (by simpa [empty] using hDistinct)]
  rfl

theorem contains_eq_true_iff : table.contains name = true ↔ name ∈ table.keys := by
  simp [contains, mem_keys_iff, Option.isSome_iff_exists]

/-! Changing the values of several names. -/

section

variable {names : List String} {f : α → α}

theorem keys_modify : (table.modify name f).keys = table.keys := by
  unfold modify
  cases hValue : table.find? name with
  | none => rfl
  | some value =>
      have hMem : name ∈ table.entries.map Prod.fst := mem_keys_iff.mpr ⟨value, hValue⟩
      exact (keys_put name (f value) table.entries).trans (if_pos hMem)

/-- To change the value of a name that there is none of changes nothing. -/
theorem modify_of_notMem (h : table.find? name = none) : table.modify name f = table := by
  rw [modify, h]

/-- Change the values of several names, in order. -/
def modifyAll (table : Table α) (names : List String) (f : α → α) : Table α :=
  names.foldl (fun t name => t.modify name f) table

theorem modifyAll_cons (name : String) : table.modifyAll (name :: names) f =
    (table.modify name f).modifyAll names f := rfl

/-- Names may be changed one list after the other. -/
theorem modifyAll_append (more : List String) :
    table.modifyAll (names ++ more) f = (table.modifyAll names f).modifyAll more f :=
  List.foldl_append

/-- Changing values adds no names. -/
theorem keys_modifyAll : (table.modifyAll names f).keys = table.keys := by
  induction names generalizing table with
  | nil => rfl
  | cons first names ih =>
      rw [modifyAll_cons, ih, keys_modify]

/-- A change that makes no difference a second time is made to the values of the names. -/
theorem find?_modifyAll (hTwice : ∀ value, f (f value) = f value) (other : String) :
    (table.modifyAll names f).find? other =
      if other ∈ names then (table.find? other).map f else table.find? other := by
  induction names generalizing table with
  | nil => rfl
  | cons first names ih =>
      rw [modifyAll_cons, ih, find?_modify]
      by_cases hFirst : other = first
      · subst hFirst
        rw [if_pos rfl, if_pos List.mem_cons_self, Option.map_map]
        by_cases hLater : other ∈ names
        · rw [if_pos hLater]
          congr 1
          exact funext hTwice
        · rw [if_neg hLater]
      · rw [if_neg hFirst]
        simp only [List.mem_cons, hFirst, false_or]

/-- Names without a value change nothing. -/
theorem modifyAll_filter {p : String → Bool} (h : ∀ n ∈ table.keys, p n = true) :
    table.modifyAll (names.filter p) f = table.modifyAll names f := by
  induction names generalizing table with
  | nil => rfl
  | cons first names ih =>
      have hRest : (table.modify first f).modifyAll (names.filter p) f =
          (table.modify first f).modifyAll names f := ih (by rwa [keys_modify])
      by_cases hFirst : p first = true
      · rw [List.filter_cons_of_pos hFirst, modifyAll_cons, modifyAll_cons, hRest]
      · have hNone : table.find? first = none := by
          refine Option.eq_none_iff_forall_ne_some.mpr fun value hValue => ?_
          exact hFirst (h first (mem_keys_iff.mpr ⟨value, hValue⟩))
        rw [modify_of_notMem hNone] at hRest
        rw [List.filter_cons_of_neg hFirst, modifyAll_cons, modify_of_notMem hNone, hRest]

end

end Table

end ComponentAnalysis
