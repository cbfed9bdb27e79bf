import ComponentAnalysis.Proofs.Source.Lines

/-! Line starts as a table of 32-bit numbers, in which a binary search finds the line of an offset.
For a source of fewer than 2^32 - 1 bytes no number of the table is too large, and no lookup leaves
the table or takes a larger number from a smaller one. Each gives the exact place of the offset. -/
namespace ComponentAnalysis

/-- Whether an offset stands between two characters of a text, or at one of its ends. -/
def Text.IsBoundary (offset : Nat) (text : List Char) : Prop :=
  ∃ before after, text = before ++ after ∧ Text.byteLength before = offset

/-- A location in 32-bit numbers. -/
structure WordLocation where
  start : UInt32
  stop : UInt32
  line : UInt32
  column : UInt32
  deriving DecidableEq, Repr

namespace WordLocation

/-- The line and then the column, in lexicographic order. -/
def place (location : WordLocation) : Nat ×ₗ Nat :=
  toLex (location.line.toNat, location.column.toNat)

def toLocation (location : WordLocation) : Location :=
  ⟨location.start.toNat, location.stop.toNat, location.line.toNat, location.column.toNat⟩

end WordLocation

namespace LineTable

/-! Arithmetic and searches that may fail. -/

/-- A count in 32 bits, and one more. There is no result if the sum does not fit. -/
def successor? (count : Nat) : Option UInt32 :=
  if (UInt32.ofNat count).toNat + 1 < UInt32.size then some (UInt32.ofNat count + 1) else none

/-- A difference, unless it is negative. -/
def difference? (a b : Nat) : Option Nat := if b ≤ a then some (a - b) else none

/-- What a search for a value reports: where it stands, or where it would have to be inserted. -/
inductive SearchResult where
  | found (position : Nat)
  | missing (position : Nat)
  deriving DecidableEq, Repr

/-- Halve the part of a sorted table in which the last entry up to a value lies, until it has one
entry. There is no result if the search leaves the table. -/
def narrow? (table : List UInt32) (value : UInt32) (base size : Nat) : Option Nat :=
  if size ≤ 1 then some base
  else
    match table[base + size / 2]? with
    | none => none
    | some middle =>
      if value < middle then narrow? table value base (size - size / 2)
      else narrow? table value (base + size / 2) (size - size / 2)
termination_by size

def search? (table : List UInt32) (value : UInt32) : Option SearchResult :=
  if table.isEmpty then some (.missing 0)
  else
    (narrow? table value 0 table.length).bind fun position =>
      (table[position]?).map fun entry =>
        if entry = value then .found position
        else if entry < value then .missing (position + 1)
        else .missing position

/-! The table of a source and the lookup of a span in it. -/

/-- Put the starts of the lines behind newlines at the end of a table, for bytes that stand from a
position on. -/
def extend? (table : List UInt32) (position : Nat) : List UInt8 → Option (List UInt32)
  | [] => some table
  | byte :: rest =>
    if byte = newlineByte then
      (successor? position).bind fun start => extend? (table ++ [start]) (position + 1) rest
    else extend? table (position + 1) rest

def ofSource? (source : String) : Option (List UInt32) :=
  extend? [0] 0 (Text.utf8 source.toList)

/-- The line of an offset, counted from zero. -/
def lineOf? (table : List UInt32) (offset : UInt32) : Option Nat :=
  (search? table offset).bind fun result =>
    match result with
    | .found position => some position
    | .missing position => difference? position 1

def locateIn? (table : List UInt32) (source : String) (start stop : UInt32) :
    Option WordLocation := do
  let offset := UInt32.ofNat (min start.toNat (Text.byteLength source.toList))
  let line ← lineOf? table offset
  let lineStart ← table[line]?
  let width ← difference? offset.toNat lineStart.toNat
  let column := match Text.slice? lineStart.toNat offset.toNat source.toList with
    | some before => before.length
    | none => width
  return ⟨start, stop, ← successor? line, ← successor? column⟩

/-- The location of a span in a source, by the table of the source. -/
def locate? (source : String) (start stop : UInt32) : Option WordLocation :=
  (ofSource? source).bind fun table => locateIn? table source start stop

/-! What the arithmetic and the search give. -/

/-- A count that leaves room for one more has a successor. -/
theorem successor?_eq_some {count : Nat} (h : count + 1 < UInt32.size) :
    ∃ next, successor? count = some next ∧ next.toNat = count + 1 := by
  have hCount : (UInt32.ofNat count).toNat = count :=
    UInt32.toNat_ofNat_of_lt' (Nat.lt_of_succ_lt h)
  have hFits : count + 1 < UInt32.size := h
  refine ⟨UInt32.ofNat count + 1, ?_, ?_⟩
  · rw [successor?, hCount, if_pos hFits]
  · rw [UInt32.toNat_add, hCount]
    exact Nat.mod_eq_of_lt h

theorem difference?_eq_some {a b : Nat} (h : b ≤ a) : difference? a b = some (a - b) := if_pos h

section

variable {table : List UInt32} {value : UInt32}

/-- An entry up to a value, behind which all entries of a table are above the value. -/
structure IsLastUpTo (table : List UInt32) (value : UInt32) (position : Nat) (entry : UInt32) :
    Prop where
  getElem? : table[position]? = some entry
  le : entry ≤ value
  lt : ∀ later ∈ table.drop (position + 1), value < later

/-- An entry that the search finds is the last start up to the value. -/
theorem IsLastUpTo.isLastStart {position : Nat} {entry : UInt32}
    (h : IsLastUpTo table value position entry) :
    IsLastStart (table.map UInt32.toNat) value.toNat position entry.toNat := by
  refine ⟨by rw [List.getElem?_map, h.getElem?]; rfl, UInt32.le_iff_toNat_le.mp h.le, ?_⟩
  intro later hLater
  rw [← List.map_drop] at hLater
  obtain ⟨word, hWord, rfl⟩ := List.mem_map.mp hLater
  exact UInt32.lt_iff_toNat_lt.mp (h.lt word hWord)

theorem lt_of_mem_drop (hSorted : table.Pairwise (· < ·)) {i j : Nat} {entry later : UInt32}
    (hEntry : table[i]? = some entry) (hValue : value < entry) (hij : i ≤ j)
    (hLater : later ∈ table.drop j) : value < later := by
  obtain ⟨k, hk⟩ := List.mem_iff_getElem?.mp hLater
  rw [List.getElem?_drop] at hk
  obtain ⟨hi, rfl⟩ := List.getElem?_eq_some_iff.mp hEntry
  obtain ⟨hjk, rfl⟩ := List.getElem?_eq_some_iff.mp hk
  rcases Nat.eq_or_lt_of_le (Nat.le_trans hij (Nat.le_add_right j k)) with hEq | hLt
  · simpa only [← hEq] using hValue
  · exact UInt32.lt_trans hValue (List.pairwise_iff_getElem.mp hSorted _ _ hi hjk hLt)

/-- The search keeps an entry up to the value at the front of its part, and behind the part only
entries above the value. -/
theorem narrow?_isLastUpTo (hSorted : table.Pairwise (· < ·)) (base size : Nat) {first : UInt32}
    (hSize : 0 < size) (hFits : base + size ≤ table.length) (hFirst : table[base]? = some first)
    (hLe : first ≤ value) (hBehind : ∀ later ∈ table.drop (base + size), value < later) :
    ∃ position entry, narrow? table value base size = some position ∧
      IsLastUpTo table value position entry := by
  fun_induction narrow? table value base size generalizing first with
  | case1 base size hOne =>
      obtain rfl : size = 1 := by omega
      exact ⟨base, first, rfl, hFirst, hLe, hBehind⟩
  | case2 base size hMore hNone =>
      have hMiddle := List.getElem?_eq_none_iff.mp hNone
      omega
  | case3 base size hMore middle hMiddle hValue ih =>
      exact ih (by omega) (by omega) hFirst hLe fun later hLater =>
        lt_of_mem_drop hSorted hMiddle hValue (by omega) hLater
  | case4 base size hMore middle hMiddle hValue ih =>
      have hSum : base + size / 2 + (size - size / 2) = base + size := by omega
      exact ih (by omega) (by omega) hMiddle (UInt32.not_lt.mp hValue) (hSum ▸ hBehind)

/-- The line that the search reports is the last one up to the value, whether or not it starts
there. -/
theorem lineOf?_isLastUpTo {rest : List UInt32} (hSorted : (0 :: rest).Pairwise (· < ·))
    (value : UInt32) :
    ∃ line entry, lineOf? (0 :: rest) value = some line ∧
      IsLastUpTo (0 :: rest) value line entry := by
  have hZero : (0 : UInt32) ≤ value := UInt32.le_iff_toNat_le.mpr (Nat.zero_le _)
  obtain ⟨position, entry, hNarrow, hLast⟩ := narrow?_isLastUpTo hSorted 0 (0 :: rest).length
    (Nat.succ_pos _) (by simp) rfl hZero (by simp)
  refine ⟨position, entry, ?_, hLast⟩
  rw [lineOf?, search?, if_neg (by simp), hNarrow, Option.bind_some, hLast.getElem?,
    Option.map_some, Option.bind_some]
  by_cases hFound : entry = value
  · rw [if_pos hFound]
  · have hLt : entry < value := UInt32.lt_of_le_of_ne hLast.le hFound
    rw [if_neg hFound, if_pos hLt]
    exact difference?_eq_some (Nat.le_add_left 1 position)

end

/-! The table lists where lines start. -/

/-- Bytes without a newline add nothing to the table. -/
theorem extend?_append {front : List UInt8} (hFront : newlineByte ∉ front) (table : List UInt32)
    (position : Nat) (rest : List UInt8) :
    extend? table position (front ++ rest) = extend? table (position + front.length) rest := by
  induction front generalizing position with
  | nil => rfl
  | cons byte front ih =>
      rw [List.mem_cons, not_or] at hFront
      rw [List.cons_append, extend?, if_neg (Ne.symm hFront.1), ih hFront.2, List.length_cons,
        Nat.add_assoc, Nat.add_comm 1]

/-- The bytes of a text add the starts of its lines, if these fit. -/
theorem extend?_utf8 (text : List Char) (table : List UInt32) (position : Nat)
    (hShort : position + Text.byteLength text < UInt32.size) :
    ∃ starts, extend? table position (Text.utf8 text) = some (table ++ starts) ∧
      starts.map UInt32.toNat = lineStarts.go position text := by
  induction text generalizing table position with
  | nil => exact ⟨[], by rw [List.append_nil]; rfl, rfl⟩
  | cons c text ih =>
      rw [Text.byteLength] at hShort
      by_cases hNewline : c = '\n'
      · subst hNewline
        have hSize : ('\n' : Char).utf8Size = 1 := by decide
        have hNextFits : position + 1 < UInt32.size := by omega
        obtain ⟨next, hNext, hValue⟩ := successor?_eq_some hNextFits
        obtain ⟨starts, hStarts, hMap⟩ := ih (table ++ [next]) (position + 1) (by omega)
        refine ⟨next :: starts, ?_, ?_⟩
        · rw [Text.utf8_cons, utf8EncodeChar_newline, List.singleton_append, extend?, if_pos rfl,
            hNext, Option.bind_some, hStarts, List.append_assoc]
          rfl
        · rw [List.map_cons, hValue, hMap, lineStarts.go, hSize]
          rfl
      · obtain ⟨starts, hStarts, hMap⟩ := ih table (position + c.utf8Size) (by omega)
        refine ⟨starts, ?_, ?_⟩
        · rw [Text.utf8_cons, extend?_append (newlineByte_notMem hNewline),
            String.length_utf8EncodeChar, hStarts]
        · rw [hMap, lineStarts.go, if_neg hNewline]

/-- The table of a short enough source lists where its lines start. -/
theorem ofSource?_eq_some {source : String} (hShort : Text.byteLength source.toList < UInt32.size) :
    ∃ starts, ofSource? source = some (0 :: starts) ∧
      (0 :: starts).map UInt32.toNat = lineStarts source.toList := by
  obtain ⟨starts, hStarts, hMap⟩ := extend?_utf8 source.toList [0] 0 (by omega)
  exact ⟨starts, hStarts, congrArg (0 :: ·) hMap⟩

/-! Lookups in the table of a source. -/

/-- A column is no larger than the offset. -/
theorem columnFrom_le (start offset : Nat) (text : List Char) :
    columnFrom start offset text ≤ offset := by
  rw [columnFrom]
  split
  · rename_i before hSlice
    have hLength := Text.length_le_byteLength before
    rw [Text.byteLength_of_slice? hSlice] at hLength
    exact Nat.le_trans hLength (Nat.sub_le _ _)
  · exact Nat.sub_le _ _

/-- A lookup counts lines and columns from the last line start up to the offset. -/
theorem exists_locate?_eq {source : String}
    (hShort : Text.byteLength source.toList < UInt32.size - 1) (start stop : UInt32) :
    ∃ line lineStart location,
      IsLastStart (lineStarts source.toList) (min start.toNat (Text.byteLength source.toList))
        line lineStart ∧
      locate? source start stop = some location ∧
      location.start = start ∧ location.stop = stop ∧ location.line.toNat = line + 1 ∧
      location.column.toNat =
        columnFrom lineStart (min start.toNat (Text.byteLength source.toList)) source.toList +
          1 := by
  have hTableFits : Text.byteLength source.toList < UInt32.size := by omega
  obtain ⟨starts, hTable, hMap⟩ := ofSource?_eq_some hTableFits
  obtain ⟨offset, hOffset⟩ :
      ∃ offset, offset = UInt32.ofNat (min start.toNat (Text.byteLength source.toList)) := ⟨_, rfl⟩
  have hNat : offset.toNat = min start.toNat (Text.byteLength source.toList) := by
    rw [hOffset]
    exact UInt32.toNat_ofNat_of_lt' (Nat.lt_of_le_of_lt (Nat.min_le_left _ _) start.toNat_lt)
  have hSorted : (0 :: starts).Pairwise (· < ·) := by
    have hStarts := pairwise_lineStarts source.toList
    rw [← hMap, List.pairwise_map] at hStarts
    exact hStarts.imp UInt32.lt_iff_toNat_lt.mpr
  obtain ⟨line, entry, hLine, hLast⟩ := lineOf?_isLastUpTo hSorted offset
  have hStart := hLast.isLastStart
  rw [hMap] at hStart
  have hLineBound : line + 1 < UInt32.size := by
    have hPosition := (List.getElem?_eq_some_iff.mp hStart.getElem?).1
    have hCount : source.toList.count '\n' ≤ source.toList.length := List.count_le_length
    have hLength := Text.length_le_byteLength source.toList
    rw [length_lineStarts] at hPosition
    omega
  have hColumnBound : columnFrom entry.toNat offset.toNat source.toList + 1 < UInt32.size := by
    have hColumn := columnFrom_le entry.toNat offset.toNat source.toList
    omega
  obtain ⟨lineWord, hLineWord, hLineNat⟩ := successor?_eq_some hLineBound
  obtain ⟨columnWord, hColumnWord, hColumnNat⟩ := successor?_eq_some hColumnBound
  refine ⟨line, entry.toNat, ⟨start, stop, lineWord, columnWord⟩, hNat ▸ hStart, ?_, rfl, rfl,
    hLineNat, hNat ▸ hColumnNat⟩
  rw [locate?, hTable, Option.bind_some, locateIn?]
  simp only [Option.bind_eq_bind, ← hOffset, hLine, hLast.getElem?, Option.bind_some,
    difference?_eq_some hStart.le, hLineWord]
  exact congrArg (Option.bind · _) hColumnWord

/-- What the table of a source answers for the spans of all 32-bit offsets. -/
structure LocatesExactly (source : String) : Prop where
  /-- Each span has a location, with the place of its start: nothing is read outside the table and
  no sum or difference leaves its range. -/
  answers : ∀ start stop, ∃ location, locate? source start stop = some location ∧
    location.start = start ∧ location.stop = stop ∧
    IsPlaceOf source.toList (min start.toNat (Text.byteLength source.toList))
      location.line.toNat location.column.toNat ∧
    location.toLocation = locate source ⟨start.toNat, stop.toNat⟩
  /-- Places grow with the offsets between characters. -/
  increasing : ∀ start stop start' stop' location location',
    Text.IsBoundary start.toNat source.toList → Text.IsBoundary start'.toNat source.toList →
    locate? source start stop = some location → locate? source start' stop' = some location' →
    (start < start' ↔ location.place < location'.place)

section

variable {source : String}

/-- The table gives the location that counting in the whole text gives. -/
theorem toLocation_eq_locate {start stop : UInt32} {location : WordLocation} {line lineStart : Nat}
    (hLast : IsLastStart (lineStarts source.toList)
      (min start.toNat (Text.byteLength source.toList)) line lineStart)
    (hStart : location.start = start) (hStop : location.stop = stop)
    (hLine : location.line.toNat = line + 1)
    (hColumn : location.column.toNat =
      columnFrom lineStart (min start.toNat (Text.byteLength source.toList)) source.toList + 1) :
    location.toLocation = locate source ⟨start.toNat, stop.toNat⟩ := by
  obtain ⟨hLineEq, hStartEq⟩ := hLast.unique (lastStart_isLastStart _ source.toList)
  rw [WordLocation.toLocation, hStart, hStop, hLine, hColumn, hLineEq, hStartEq]
  rfl

/-- Every span of a short enough source is located at the place of its start. -/
theorem exists_locate?_isPlaceOf (hShort : Text.byteLength source.toList < UInt32.size - 1)
    (start stop : UInt32) :
    ∃ location, locate? source start stop = some location ∧
      location.start = start ∧ location.stop = stop ∧
      IsPlaceOf source.toList (min start.toNat (Text.byteLength source.toList))
        location.line.toNat location.column.toNat ∧
      location.toLocation = locate source ⟨start.toNat, stop.toNat⟩ := by
  obtain ⟨line, lineStart, location, hLast, hLocate, hStart, hStop, hLine, hColumn⟩ :=
    exists_locate?_eq hShort start stop
  refine ⟨location, hLocate, hStart, hStop, ?_,
    toLocation_eq_locate hLast hStart hStop hLine hColumn⟩
  rw [hLine, hColumn]
  exact hLast.isPlaceOf

/-- The place that is found for an offset between characters is that of the offset itself. -/
theorem isPlaceOf_of_locate? (hShort : Text.byteLength source.toList < UInt32.size - 1)
    {start stop : UInt32} {location : WordLocation} {before after : List Char}
    (hText : source.toList = before ++ after) (hOffset : Text.byteLength before = start.toNat)
    (h : locate? source start stop = some location) :
    IsPlaceOf (before ++ after) (Text.byteLength before)
      location.line.toNat location.column.toNat := by
  obtain ⟨found, hFound, -, -, hPlace, -⟩ := exists_locate?_isPlaceOf hShort start stop
  obtain rfl := Option.some.inj (h.symm.trans hFound)
  have hInside : start.toNat ≤ Text.byteLength source.toList := by
    rw [hText, Text.byteLength_append, ← hOffset]
    exact Nat.le_add_right _ _
  rwa [Nat.min_eq_left hInside, hText, ← hOffset] at hPlace

/-- A later offset between characters has a later place. -/
theorem place_lt_of_lt (hShort : Text.byteLength source.toList < UInt32.size - 1)
    {start stop start' stop' : UInt32} {location location' : WordLocation}
    (hBoundary : Text.IsBoundary start.toNat source.toList)
    (hBoundary' : Text.IsBoundary start'.toNat source.toList)
    (h : locate? source start stop = some location)
    (h' : locate? source start' stop' = some location') (hLt : start < start') :
    location.place < location'.place := by
  obtain ⟨before, after, hText, hOffset⟩ := hBoundary
  obtain ⟨before', after', hText', hOffset'⟩ := hBoundary'
  have hPlace := isPlaceOf_of_locate? hShort hText hOffset h
  have hPlace' := isPlaceOf_of_locate? hShort hText' hOffset' h'
  have hLength : Text.byteLength before < Text.byteLength before' := by
    rw [hOffset, hOffset']
    exact UInt32.lt_iff_toNat_lt.mp hLt
  rcases List.append_eq_append_iff.mp (hText.symm.trans hText') with
    ⟨middle, rfl, rfl⟩ | ⟨middle, rfl, -⟩
  · have hMiddle : middle ≠ [] := by
      rintro rfl
      rw [List.append_nil] at hLength
      exact Nat.lt_irrefl _ hLength
    rw [← List.append_assoc] at hPlace
    exact hPlace.lt hMiddle hPlace'
  · rw [Text.byteLength_append] at hLength
    omega

/-- Every source that is short enough is located exactly. -/
theorem locatesExactly (hShort : Text.byteLength source.toList < UInt32.size - 1) :
    LocatesExactly source := by
  refine ⟨exists_locate?_isPlaceOf hShort, ?_⟩
  intro start stop start' stop' location location' hBoundary hBoundary' h h'
  refine ⟨place_lt_of_lt hShort hBoundary hBoundary' h h', fun hLt => ?_⟩
  by_contra hNot
  rcases UInt32.lt_or_eq_of_le (UInt32.not_lt.mp hNot) with hAfter | rfl
  · exact lt_asymm hLt (place_lt_of_lt hShort hBoundary' hBoundary h' h hAfter)
  · obtain ⟨before, after, hText, hOffset⟩ := hBoundary
    obtain ⟨hLine, hColumn⟩ := (isPlaceOf_of_locate? hShort hText hOffset h).unique
      (isPlaceOf_of_locate? hShort hText hOffset h')
    rw [WordLocation.place, WordLocation.place, hLine, hColumn] at hLt
    exact lt_irrefl _ hLt

/-- A character of two bytes stands before the second line. -/
theorem locatesExactly_accented :
    Text.byteLength "é\nb".toList < UInt32.size - 1 ∧ LocatesExactly "é\nb" ∧
      locate? "é\nb" 3 4 = some ⟨3, 4, 2, 1⟩ :=
  ⟨by decide, locatesExactly (by decide), by decide +kernel⟩

end

end LineTable

end ComponentAnalysis
