import ComponentAnalysis.Proofs.Digest.Hexadecimal
import ComponentAnalysis.Style.Usage

/-! What the text that imports a style says. Scopes are written in hexadecimal digits. An import
therefore shows where its scope ends, and it can be read which style of the file it asks for. -/
namespace ComponentAnalysis

namespace Digest

theorem isDigit_of_mem_ofText {text : String} {c : Char} (h : c ∈ (ofText text).toList) :
    IsDigit c :=
  isDigit_of_mem_hexadecimal h

/-- The mark between the parts of an import is no digit. -/
theorem not_isDigit_ampersand : ¬ IsDigit '&' := by
  have hNone : ∀ d < 16, '&' ≠ Nat.digitChar d := by decide
  rintro ⟨d, hd, hEq⟩
  exact hNone d hd hEq

theorem ampersand_notMem_scopeId (fileId component : String) :
    '&' ∉ (scopeId fileId component).toList :=
  fun h => not_isDigit_ampersand (isDigit_of_mem_ofText h)

end Digest

section

variable {front front' back back' head : String} {mark : Char}

/-- The text before the first mark is read off a text. -/
theorem takeWhile_append_mark (h : mark ∉ front.toList) :
    ((front ++ (String.singleton mark ++ back)).toList.takeWhile fun c => c ≠ mark) =
      front.toList := by
  rw [String.toList_append, String.toList_append, String.toList_singleton,
    List.takeWhile_append_of_pos]
  · simp
  · intro c hc
    exact decide_eq_true fun hMark => h (hMark ▸ hc)

theorem eq_of_append_mark_eq
    (h : head ++ (front ++ (String.singleton mark ++ back)) =
      head ++ (front' ++ (String.singleton mark ++ back')))
    (hFront : mark ∉ front.toList) (hFront' : mark ∉ front'.toList) : front = front' := by
  have hBehind := (String.append_right_inj head).mp h
  apply String.toList_injective
  rw [← takeWhile_append_mark hFront, hBehind, takeWhile_append_mark hFront']

end

/-- What a text that imports a style says. -/
structure ImportedStyle where
  fileId : String
  scopeId : String
  component : String
  language : StyleLanguage
  isScoped : Bool
  deriving DecidableEq, Repr

namespace ImportedStyle

/-- What is said of the style of a scope. -/
def ofStyle (fileId scopeId : String) (style : StyleDefinition) : ImportedStyle where
  fileId
  scopeId
  component := style.component
  language := style.language
  isScoped := style.isScoped

/-- The fields of the query that asks for the style. -/
def fields (s : ImportedStyle) : List String :=
  ["type=vine-style", "scopeId=" ++ s.scopeId, "comp=" ++ s.component,
    "lang=" ++ s.language.toString] ++ (if s.isScoped then ["scoped=true"] else []) ++
    ["virtual." ++ s.language.toString]

/-- The text that says it: an import of the file with the query. -/
def text (s : ImportedStyle) : String :=
  "import '" ++ s.fileId ++ "?" ++ "&".intercalate s.fields ++ "';"

/-- A text says this of a style and, among the imports of the file, nothing else. -/
structure IsToldBy (s : ImportedStyle) (told : String) : Prop where
  text_eq : s.text = told
  only : ∀ other : ImportedStyle, other.fileId = s.fileId → '&' ∉ other.scopeId.toList →
    other.text = told → other = s

/-- The end of a text, behind the name of the component. -/
def ending (language : StyleLanguage) (isScoped : Bool) : String :=
  "&lang=" ++ language.toString ++ (if isScoped then "&scoped=true" else "") ++ "&virtual." ++
    language.toString ++ "';"

theorem text_eq (s : ImportedStyle) :
    s.text = "import '" ++ s.fileId ++ "?type=vine-style&scopeId=" ++
      (s.scopeId ++ (String.singleton '&' ++ ("comp=" ++
        (s.component ++ ending s.language s.isScoped)))) := by
  apply String.toList_injective
  cases hScoped : s.isScoped <;> simp [text, fields, ending, hScoped]

/-- The import of a style is the text that says what the style is. -/
theorem styleImport_eq (fileId scopeId : String) (style : StyleDefinition) :
    styleImport fileId scopeId style.component style = (ofStyle fileId scopeId style).text := by
  have hMark : "&comp=" = String.singleton '&' ++ "comp=" := by decide
  rw [text_eq]
  unfold styleImport ofStyle ending
  rw [hMark]
  simp only [String.append_assoc]

/-- No ending of a text is a part of another one. -/
theorem ending_inj : ∀ l ∈ StyleLanguage.all, ∀ l' ∈ StyleLanguage.all, ∀ b b' : Bool,
    (ending l b).toList <:+ (ending l' b').toList → l = l' ∧ b = b' := by
  decide +kernel

/-- The name of a component can be told from the ending behind it. -/
theorem eq_of_append_ending_eq {component component' : String} {l l' : StyleLanguage} {b b' : Bool}
    (h : component ++ ending l b = component' ++ ending l' b') :
    component = component' ∧ l = l' ∧ b = b' := by
  have hList : component.toList ++ (ending l b).toList =
      component'.toList ++ (ending l' b').toList := by
    rw [← String.toList_append, ← String.toList_append, h]
  have hEnds : l = l' ∧ b = b' := by
    rcases List.suffix_or_suffix_of_suffix (List.suffix_append _ _)
      (hList ▸ List.suffix_append _ _) with hSuffix | hSuffix
    · obtain ⟨hLanguage, hScoped⟩ := ending_inj l' l'.mem_all l l.mem_all b' b hSuffix
      exact ⟨hLanguage.symm, hScoped.symm⟩
    · exact ending_inj l l.mem_all l' l'.mem_all b b' hSuffix
  obtain ⟨rfl, rfl⟩ := hEnds
  exact ⟨(String.append_left_inj _).mp h, rfl, rfl⟩

/-- A scope without an ampersand can be read off a text, and so can everything behind it. -/
theorem isToldBy_text {s : ImportedStyle} (hScope : '&' ∉ s.scopeId.toList) :
    s.IsToldBy s.text := by
  refine ⟨rfl, fun other hFile hOther hText => ?_⟩
  rw [text_eq, text_eq, hFile] at hText
  have hSame := eq_of_append_mark_eq hText hOther hScope
  rw [hSame, String.append_right_inj, String.append_right_inj, String.append_right_inj,
    String.append_right_inj] at hText
  obtain ⟨hComponent, hLanguage, hScoped⟩ := eq_of_append_ending_eq hText
  cases other
  cases s
  simp_all

end ImportedStyle

end ComponentAnalysis
