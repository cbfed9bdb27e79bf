/-! Finite maps from names to values. -/
namespace ComponentAnalysis

universe u

/-- A finite map from names to values, in order of first insertion. No name is listed twice. -/
structure Table (α : Type u) where
  entries : List (String × α) := []
  distinct : (entries.map Prod.fst).Nodup := by simp

namespace Table

variable {α : Type u}

/-- Set the value of a name in a list of entries, where it stands or else at the end. -/
def put (name : String) (value : α) : List (String × α) → List (String × α)
  | [] => [(name, value)]
  | entry :: rest =>
    if entry.1 = name then (name, value) :: rest else entry :: put name value rest

/-- Setting a value adds the name unless it is there. -/
theorem keys_put (name : String) (value : α) (entries : List (String × α)) :
    (put name value entries).map Prod.fst =
      if name ∈ entries.map Prod.fst then entries.map Prod.fst
      else entries.map Prod.fst ++ [name] := by
  induction entries with
  | nil => simp [put]
  | cons entry rest ih => grind [put]

def empty : Table α := {}

instance : Inhabited (Table α) := ⟨empty⟩

def find? (table : Table α) (name : String) : Option α := table.entries.lookup name

def contains (table : Table α) (name : String) : Bool := (table.find? name).isSome

def size (table : Table α) : Nat := table.entries.length

/-- Names with a value, in order of first insertion. -/
def keys (table : Table α) : List String := table.entries.map Prod.fst

/-- Set the value of a name, replacing an earlier one. -/
def insert (table : Table α) (name : String) (value : α) : Table α where
  entries := put name value table.entries
  distinct := by
    rw [keys_put]
    split
    · exact table.distinct
    · rename_i h
      exact List.nodup_append.2 ⟨table.distinct, by simp, by grind⟩

/-- Set the value of a name that has none yet. -/
def insertIfAbsent (table : Table α) (name : String) (value : α) : Table α :=
  if table.contains name then table else table.insert name value

/-- Change the value of a name, if it has one. -/
def modify (table : Table α) (name : String) (f : α → α) : Table α :=
  match table.find? name with
  | some value => table.insert name (f value)
  | none => table

/-- Set the values of several names, in order. -/
def insertAll (table : Table α) (entries : List (String × α)) : Table α :=
  entries.foldl (fun t entry => t.insert entry.1 entry.2) table

/-- The table of several entries; a later value of a name replaces an earlier one. -/
def ofList (entries : List (String × α)) : Table α := insertAll empty entries

/-- The value that was set is found, and the others are found as before. -/
theorem lookup_put (name other : String) (value : α) (entries : List (String × α)) :
    (put name value entries).lookup other =
      if other = name then some value else entries.lookup other := by
  induction entries with
  | nil => grind [put]
  | cons entry rest ih => grind [put]

/-- The keys of a table are the names with a value. -/
theorem mem_keys_iff {table : Table α} {name : String} :
    name ∈ table.keys ↔ ∃ value, table.find? name = some value := by
  rw [← Option.ne_none_iff_exists', ne_eq, find?, List.lookup_eq_none_iff]
  simp [keys]

@[simp] theorem find?_empty (name : String) : (empty : Table α).find? name = none := rfl

/-- The value last set is the one found; other names keep theirs. -/
theorem find?_insert (table : Table α) (name other : String) (value : α) :
    (table.insert name value).find? other =
      if other = name then some value else table.find? other :=
  lookup_put name other value table.entries

/-- A value that is there stays. -/
theorem find?_insertIfAbsent (table : Table α) (name other : String) (value : α) :
    (table.insertIfAbsent name value).find? other =
      if other = name then some ((table.find? name).getD value) else table.find? other := by
  unfold insertIfAbsent contains
  cases h : table.find? name <;> grind [find?_insert]

/-- Only the value of the one name changes. -/
theorem find?_modify (table : Table α) (name other : String) (f : α → α) :
    (table.modify name f).find? other =
      if other = name then (table.find? name).map f else table.find? other := by
  unfold modify
  cases h : table.find? name <;> grind [find?_insert]

end Table

end ComponentAnalysis
