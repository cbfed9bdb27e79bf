/-! The languages in which styles may be written. -/
namespace ComponentAnalysis

inductive StyleLanguage where
  | css
  | scss
  | sass
  | less
  | stylus
  | postcss
  deriving DecidableEq, Repr, Inhabited

namespace StyleLanguage

def toString : StyleLanguage → String
  | css => "css"
  | scss => "scss"
  | sass => "sass"
  | less => "less"
  | stylus => "stylus"
  | postcss => "postcss"

def all : List StyleLanguage := [css, scss, sass, less, stylus, postcss]

def ofTag? (tag : String) : Option StyleLanguage := all.find? fun lang => lang.toString = tag

/-- The list leaves no language out. -/
theorem mem_all (lang : StyleLanguage) : lang ∈ all := by
  cases lang <;> decide

/-- A language is found by its own tag. -/
theorem ofTag?_toString (lang : StyleLanguage) : ofTag? lang.toString = some lang := by
  cases lang <;> decide

end StyleLanguage

end ComponentAnalysis
