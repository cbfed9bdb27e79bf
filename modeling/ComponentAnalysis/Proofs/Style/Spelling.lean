import ComponentAnalysis.Proofs.Style.Extraction

/-! Which ways to write an expression in a style mean the same. A use ends at the first closing
parenthesis, and blanks are taken away before quotes. So an expression with a closing parenthesis is
cut, and blanks inside the quotes stay. -/
namespace ComponentAnalysis.StyleVariables

/-- Blanks on both sides of a text. -/
structure Padding where
  before : List Char
  after : List Char
  before_blank : ∀ c ∈ before, Text.isBlank c = true
  after_blank : ∀ c ∈ after, Text.isBlank c = true

/-- A quote on both sides of a text and blanks inside. -/
structure Quotes where
  mark : Char
  mark_isQuote : isQuote mark = true
  inner : Padding

/-- A way to write an expression: with blanks around it and perhaps with quotes. -/
structure Spelling where
  outer : Padding
  quotes : Option Quotes

/-- A text without blanks and quotes at its ends. -/
structure IsBare (expression : List Char) : Prop where
  head : ∀ c ∈ expression.head?, Text.isBlank c = false ∧ isQuote c = false
  last : ∀ c ∈ expression.getLast?, Text.isBlank c = false ∧ isQuote c = false

/-- How deep in parentheses a text ends that starts at a depth; nothing if it closes one that is not
open. -/
def depth? : (depth : Nat) → List Char → Option Nat
  | depth, [] => some depth
  | depth, c :: rest =>
    if c = '(' then depth? (depth + 1) rest
    else if c = ')' then if depth = 0 then none else depth? (depth - 1) rest
    else depth? depth rest

def IsBalanced (text : List Char) : Prop := depth? 0 text = some 0

def Padding.around (padding : Padding) (text : List Char) : List Char :=
  padding.before ++ text ++ padding.after

def Quotes.around (quotes : Quotes) (text : List Char) : List Char :=
  [quotes.mark] ++ quotes.inner.around text ++ [quotes.mark]

namespace Spelling

/-- What is written between the parentheses. -/
def write (spelling : Spelling) (expression : List Char) : List Char :=
  spelling.outer.around (spelling.quotes.elim expression fun quotes => quotes.around expression)

/-- What the blanks outside and the quotes are written around. -/
def inside (spelling : Spelling) (expression : List Char) : List Char :=
  spelling.quotes.elim expression fun quotes => quotes.inner.around expression

/-- There are no blanks inside the quotes. -/
def IsTight (spelling : Spelling) : Prop :=
  ∀ quotes ∈ spelling.quotes, quotes.inner.before = [] ∧ quotes.inner.after = []

end Spelling

/-! What is left of a spelling. -/

/-- Quotes are no blanks, so blanks are taken away up to a quote. -/
theorem isBlank_of_isQuote {c : Char} (h : isQuote c = true) : Text.isBlank c = false := by
  simp only [isQuote, Bool.or_eq_true, beq_iff_eq] at h
  rcases h with rfl | rfl <;> decide

/-- Blanks are no quotes, so quotes are taken away up to a blank. -/
theorem isQuote_of_isBlank {c : Char} (h : Text.isBlank c = true) : isQuote c = false := by
  rw [Bool.eq_false_iff]
  intro hQuote
  rw [isBlank_of_isQuote hQuote] at h
  cases h

/-- Padding starts with no quote. -/
theorem Padding.isQuote_head {padding : Padding} {text : List Char}
    (hText : ∀ c ∈ text.head?, isQuote c = false) :
    ∀ c ∈ (padding.around text).head?, isQuote c = false := by
  intro c hc
  simp only [Padding.around, List.head?_append, Option.mem_def, Option.or_eq_some_iff] at hc
  rcases hc with (hBefore | ⟨-, hHead⟩) | ⟨-, hAfter⟩
  · exact isQuote_of_isBlank (padding.before_blank c (List.mem_of_head? hBefore))
  · exact hText c hHead
  · exact isQuote_of_isBlank (padding.after_blank c (List.mem_of_head? hAfter))

theorem Padding.isQuote_last {padding : Padding} {text : List Char}
    (hText : ∀ c ∈ text.getLast?, isQuote c = false) :
    ∀ c ∈ (padding.around text).getLast?, isQuote c = false := by
  intro c hc
  simp only [Padding.around, List.getLast?_append, Option.mem_def, Option.or_eq_some_iff] at hc
  rcases hc with hAfter | ⟨-, hLast | ⟨-, hBefore⟩⟩
  · exact isQuote_of_isBlank (padding.after_blank c (List.mem_of_getLast? hAfter))
  · exact hText c hLast
  · exact isQuote_of_isBlank (padding.before_blank c (List.mem_of_getLast? hBefore))

/-- Padding is taken away from a text without blanks at its ends. -/
theorem Padding.trims_around (padding : Padding) {text : List Char}
    (hHead : ∀ c ∈ text.head?, Text.isBlank c = false)
    (hLast : ∀ c ∈ text.getLast?, Text.isBlank c = false) :
    Text.Trims Text.isBlank (padding.around text) text :=
  ⟨⟨_, _, rfl, padding.before_blank, padding.after_blank⟩, hHead, hLast⟩

/-- Only empty padding changes nothing. -/
theorem Padding.around_eq_self_iff {padding : Padding} {text : List Char} :
    padding.around text = text ↔ padding.before = [] ∧ padding.after = [] := by
  constructor
  · intro hSame
    have hLength := congrArg List.length hSame
    rw [Padding.around, List.length_append, List.length_append] at hLength
    exact ⟨List.eq_nil_of_length_eq_zero (by omega), List.eq_nil_of_length_eq_zero (by omega)⟩
  · rintro ⟨hBefore, hAfter⟩
    rw [Padding.around, hBefore, hAfter, List.nil_append, List.append_nil]

/-- Quotes are taken away from around a text, with the blanks inside left. -/
theorem Quotes.trims_around (quotes : Quotes) {text : List Char}
    (hHead : ∀ c ∈ text.head?, isQuote c = false)
    (hLast : ∀ c ∈ text.getLast?, isQuote c = false) :
    Text.Trims isQuote (quotes.around text) (quotes.inner.around text) := by
  have hQuote : ∀ c ∈ [quotes.mark], isQuote c = true := by
    intro c hc
    exact List.mem_singleton.mp hc ▸ quotes.mark_isQuote
  exact ⟨⟨_, _, rfl, hQuote, hQuote⟩, Padding.isQuote_head hHead, Padding.isQuote_last hLast⟩

/-- Quotes stop the blanks from being taken away. -/
theorem Quotes.isBlank_head (quotes : Quotes) (text : List Char) :
    ∀ c ∈ (quotes.around text).head?, Text.isBlank c = false := by
  intro c hc
  obtain rfl : quotes.mark = c := Option.some.inj hc
  exact isBlank_of_isQuote quotes.mark_isQuote

theorem Quotes.isBlank_last (quotes : Quotes) (text : List Char) :
    ∀ c ∈ (quotes.around text).getLast?, Text.isBlank c = false := by
  intro c hc
  rw [Quotes.around, List.getLast?_concat] at hc
  obtain rfl : quotes.mark = c := Option.some.inj hc
  exact isBlank_of_isQuote quotes.mark_isQuote

/-- Padding adds no parenthesis. -/
theorem Padding.closing_notMem_around (padding : Padding) {text : List Char} (h : ')' ∉ text) :
    ')' ∉ padding.around text := by
  intro hMem
  rcases List.mem_append.mp hMem with hMem | hAfter
  · rcases List.mem_append.mp hMem with hBefore | hIn
    · exact absurd (padding.before_blank _ hBefore) (by decide)
    · exact h hIn
  · exact absurd (padding.after_blank _ hAfter) (by decide)

/-- Nor do quotes. -/
theorem Quotes.closing_notMem_around (quotes : Quotes) {text : List Char} (h : ')' ∉ text) :
    ')' ∉ quotes.around text := by
  have hMark : ')' ∉ [quotes.mark] := fun hIn =>
    absurd (List.mem_singleton.mp hIn ▸ quotes.mark_isQuote) (by decide)
  intro hMem
  rcases List.mem_append.mp hMem with hMem | hBehind
  · rcases List.mem_append.mp hMem with hBefore | hIn
    · exact hMark hBefore
    · exact quotes.inner.closing_notMem_around h hIn
  · exact hMark hBehind

namespace Spelling

variable {spelling : Spelling} {expression : List Char}

/-- What is left of a spelling is what stands inside its quotes, with the blanks there. -/
theorem cleans_write (hBare : IsBare expression) :
    Cleans (spelling.write expression) (spelling.inside expression) := by
  obtain ⟨outer, quotes⟩ := spelling
  cases quotes with
  | none =>
      have hHead := fun c hc => (hBare.head c hc).1
      have hLast := fun c hc => (hBare.last c hc).1
      refine ⟨expression, outer.trims_around hHead hLast, ⟨[], [], ?_, ?_, ?_⟩, ?_, ?_⟩
      · simp [inside]
      · exact fun c hc => absurd hc List.not_mem_nil
      · exact fun c hc => absurd hc List.not_mem_nil
      · exact fun c hc => (hBare.head c hc).2
      · exact fun c hc => (hBare.last c hc).2
  | some quotes =>
      refine ⟨quotes.around expression, ?_, ?_⟩
      · exact outer.trims_around (quotes.isBlank_head expression) (quotes.isBlank_last expression)
      · exact quotes.trims_around (fun c hc => (hBare.head c hc).2)
          fun c hc => (hBare.last c hc).2

/-- Nothing but blanks and quotes is written around an expression. -/
theorem closing_notMem_write (hClosing : ')' ∉ expression) : ')' ∉ spelling.write expression := by
  obtain ⟨outer, quotes⟩ := spelling
  cases quotes with
  | none => exact outer.closing_notMem_around hClosing
  | some quotes => exact outer.closing_notMem_around (quotes.closing_notMem_around hClosing)

/-- So it is the expression itself if the quotes are tight. -/
theorem inside_eq_self_iff (spelling : Spelling) (expression : List Char) :
    spelling.inside expression = expression ↔ spelling.IsTight := by
  obtain ⟨outer, quotes⟩ := spelling
  cases quotes with
  | none => exact iff_of_true rfl fun _ hQuotes => by cases hQuotes
  | some quotes =>
      refine Padding.around_eq_self_iff.trans ⟨fun h q hq => ?_, fun h => h quotes rfl⟩
      exact Option.some.inj hq ▸ h

end Spelling

/-! What a style with a single use is read as. -/

/-- A style whose only use is that of an expression written in a way. -/
def spelledStyle (front : List Char) (spelling : Spelling) (expression back : List Char) :
    String :=
  String.ofList (front ++ opening ++ (spelling.write expression ++ [')'] ++ back))

/-- An expression is not empty and is what is left of the text between some parentheses. -/
theorem exists_raw_of_mem_expressions {css : String} {expression : List Char}
    (h : String.ofList expression ∈ expressions css) :
    expression ≠ [] ∧ ∃ raw ∈ rawUses css.toList, clean raw = expression := by
  rw [(listsOnce_expressions css).mem_iff, List.mem_map] at h
  obtain ⟨cleaned, hCleaned, hSame⟩ := h
  obtain rfl := String.ofList_injective hSame
  obtain ⟨hMem, hNonempty⟩ := List.mem_filter.mp hCleaned
  exact ⟨of_decide_eq_true hNonempty, List.mem_map.mp hMem⟩

/-- A use ends at the first closing parenthesis, so none is in an expression. -/
theorem closing_notMem_clean {css raw : List Char} (h : raw ∈ rawUses css) : ')' ∉ clean raw := by
  obtain ⟨parts, rfl⟩ := Composition.exists_text_eq css
  rw [parts.rawUses_text] at h
  obtain ⟨bare, hBare, hClean⟩ := cleans_clean raw
  exact fun hClosing =>
    Composition.closing_notMem_of_mem_raws h (hBare.mem (hClean.mem hClosing))

/-- Cleaning a text gives the one result that there is. -/
theorem Cleans.clean_eq {raw expression : List Char} (h : Cleans raw expression) :
    clean raw = expression := by
  obtain ⟨bare, hBare, hExpression⟩ := h
  rw [clean, hBare.trim_eq, hExpression.trim_eq]

/-- A style with one use has one expression, unless nothing is left of it. -/
theorem expressions_of_rawUses {css : String} {raw : List Char} (h : rawUses css.toList = [raw])
    (hNonempty : clean raw ≠ []) : expressions css = [String.ofList (clean raw)] := by
  rw [expressions, h]
  simp [hNonempty, List.eraseDups_cons]

section

variable {front expression back : List Char} {spelling : Spelling}

/-- A use of an expression without a closing parenthesis is read whole. -/
theorem rawUses_spelledStyle (hFront : ¬ opening <:+: front) (hBack : ¬ opening <:+: back)
    (hClosing : ')' ∉ expression) :
    rawUses (spelledStyle front spelling expression back).toList = [spelling.write expression] := by
  rw [spelledStyle, String.toList_ofList,
    rawUses_closed hFront (Spelling.closing_notMem_write hClosing), rawUses_plain hBack]

/-- A spelling of an expression is read as the expression exactly if there is one, it has no closing
parenthesis, and no blanks stand inside the quotes. -/
theorem expressions_spelledStyle_iff (hBare : IsBare expression) (hFront : ¬ opening <:+: front)
    (hBack : ¬ opening <:+: back) :
    expressions (spelledStyle front spelling expression back) = [String.ofList expression] ↔
      expression ≠ [] ∧ ')' ∉ expression ∧ spelling.IsTight := by
  have hClean : clean (spelling.write expression) = spelling.inside expression :=
    (Spelling.cleans_write hBare).clean_eq
  rw [← Spelling.inside_eq_self_iff spelling expression]
  constructor
  · intro hRead
    have hMem : String.ofList expression ∈
        expressions (spelledStyle front spelling expression back) := by
      rw [hRead]
      exact List.mem_singleton_self _
    obtain ⟨hNonempty, raw, hRaw, hRawClean⟩ := exists_raw_of_mem_expressions hMem
    -- What is read has no closing parenthesis, so the use is read whole.
    have hClosing : ')' ∉ expression := hRawClean ▸ closing_notMem_clean hRaw
    rw [rawUses_spelledStyle hFront hBack hClosing, List.mem_singleton] at hRaw
    rw [hRaw, hClean] at hRawClean
    exact ⟨hNonempty, hClosing, hRawClean⟩
  · rintro ⟨hNonempty, hClosing, hInside⟩
    rw [hInside] at hClean
    rw [expressions_of_rawUses (rawUses_spelledStyle hFront hBack hClosing)
      (by rwa [hClean]), hClean]

end

/-! Spellings of given expressions. -/

instance (expression : List Char) : Decidable (IsBare expression) :=
  decidable_of_iff
    ((expression.head?.all fun c => !Text.isBlank c && !isQuote c) = true ∧
      (expression.getLast?.all fun c => !Text.isBlank c && !isQuote c) = true)
    ⟨fun h => ⟨by simpa [Option.all_eq_true] using h.1, by simpa [Option.all_eq_true] using h.2⟩,
      fun h => by simpa [Option.all_eq_true] using And.intro h.head h.last⟩

instance (text : List Char) : Decidable (IsBalanced text) :=
  inferInstanceAs (Decidable (_ = _))

def unpadded : Padding := ⟨[], [], List.all_eq_true.mp rfl, List.all_eq_true.mp rfl⟩

def spaced : Padding := ⟨[' '], [' '], List.all_eq_true.mp rfl, List.all_eq_true.mp rfl⟩

def quoted (outer inner : Padding) : Spelling := ⟨outer, some ⟨'"', by decide, inner⟩⟩

/-- Blanks around the quotes are of no account. -/
theorem expressions_quotedName :
    IsBare "a.b".toList ∧ ¬ opening <:+: "c: ".toList ∧ ¬ opening <:+: ";".toList ∧
      expressions (spelledStyle "c: ".toList (quoted spaced unpadded) "a.b".toList ";".toList) =
        [String.ofList "a.b".toList] := by
  obtain ⟨hBare, hFront, hBack, hNonempty, hClosing⟩ : IsBare "a.b".toList ∧
      ¬ opening <:+: "c: ".toList ∧ ¬ opening <:+: ";".toList ∧ "a.b".toList ≠ [] ∧
      ')' ∉ "a.b".toList := by decide
  refine ⟨hBare, hFront, hBack, (expressions_spelledStyle_iff hBare hFront hBack).mpr ?_⟩
  refine ⟨hNonempty, hClosing, fun quotes hQuotes => ?_⟩
  obtain rfl := Option.some.inj hQuotes
  exact ⟨rfl, rfl⟩

/-- A call is cut behind its arguments, and blanks inside the quotes stay with a name. -/
theorem not_expressions_call :
    (IsBare "f(a)".toList ∧ IsBalanced "f(a)".toList ∧
      spelledStyle [] ⟨unpadded, none⟩ "f(a)".toList [] = "v-bind(f(a))" ∧
      expressions "v-bind(f(a))" = ["f(a"]) ∧
    IsBare "b".toList ∧ IsBalanced "b".toList ∧
      spelledStyle [] (quoted unpadded spaced) "b".toList [] = "v-bind(\" b \")" ∧
      expressions "v-bind(\" b \")" = [" b "] := by
  decide +kernel

end ComponentAnalysis.StyleVariables
