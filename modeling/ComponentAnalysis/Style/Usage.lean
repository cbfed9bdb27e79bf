import ComponentAnalysis.Component.Basic

/-! The order in which the styles of a file are imported: a component stands before the components
that its template renders, so that the styles of the latter win. -/
namespace ComponentAnalysis

/-- Whether a character continues the name of a tag. -/
def continuesTagName (c : Char) : Bool :=
  c.isAlphanum || c == '_' || c == '-' || c == '$'

/-- Whether one of the occurrences of `needle` in a text ends where a tag name ends. Occurrences do
not overlap; `skip` is what is left of the last one. -/
def hasTag (needle : List Char) (skip : Nat) : List Char → Bool
  | [] => false
  | c :: rest =>
    if skip > 0 then hasTag needle (skip - 1) rest
    else if needle.isPrefixOf (c :: rest) then
      !((c :: rest).drop needle.length).head?.any continuesTagName ||
        hasTag needle (needle.length - 1) rest
    else hasTag needle 0 rest

/-- Whether a template has an opening tag of the given name. -/
def rendersTag (template name : String) : Bool :=
  name ≠ "" && hasTag ('<' :: name.toList) 0 template.toList

namespace Usage

/-- For each component the positions of the components that its template renders. -/
def uses {Ast : Type} (components : List (Component Ast)) : List (List Nat) :=
  components.zipIdx.map fun (user, i) =>
    match user.template with
    | none => []
    | some template =>
      components.zipIdx.filterMap fun (used, j) =>
        if j ≠ i ∧ rendersTag template used.name then some j else none

/-- For each component the number of components that render it. -/
def userCounts (uses : List (List Nat)) : List Nat :=
  (List.range uses.length).map fun j => uses.countP fun used => used.contains j

/-- Take one user off the counts of some components. -/
def release (used : List Nat) (counts : List Nat) : List Nat :=
  counts.zipIdx.map fun (count, j) => if used.contains j then count - 1 else count

/-- The component to place next: the first that no unplaced component renders, or else the first. -/
def next? (counts : List Nat) (unplaced : List Nat) : Option Nat :=
  (unplaced.find? fun i => counts[i]? = some 0) <|> unplaced.head?

/-- Place up to `steps` components, one after the other. -/
def place (uses : List (List Nat)) : (steps : Nat) → (counts unplaced : List Nat) → List Nat
  | 0, _, _ => []
  | steps + 1, counts, unplaced =>
    match next? counts unplaced with
    | none => []
    | some i =>
      i :: place uses steps (release ((uses[i]?).getD []) counts) (unplaced.erase i)

/-- The positions of all components in the order of their use. -/
def order {Ast : Type} (components : List (Component Ast)) : List Nat :=
  let uses := uses components
  place uses components.length (userCounts uses) (List.range components.length)

end Usage

/-- The text that imports the style of a component. -/
def styleImport (fileId scopeId component : String) (style : StyleDefinition) : String :=
  let language := style.language.toString
  let scope := if style.isScoped then "&scoped=true" else ""
  "import '" ++ fileId ++ "?type=vine-style&scopeId=" ++ scopeId ++ "&comp=" ++ component ++
    "&lang=" ++ language ++ scope ++ "&virtual." ++ language ++ "';"

namespace FileAnalysis

variable {Ast : Type}

/-- The components that own a style, in the order of their use, each scope once. -/
def styledComponents (file : FileAnalysis Ast) : List (Component Ast × StyleDefinition) :=
  go [] ((Usage.order file.components).filterMap fun i => file.components[i]?)
where
  go (seen : List String) : List (Component Ast) → List (Component Ast × StyleDefinition)
    | [] => []
    | component :: rest =>
      match file.styles.find? component.scopeId with
      | none => go seen rest
      | some style =>
        if style.component ≠ component.name ∨ component.scopeId ∈ seen then go seen rest
        else (component, style) :: go (component.scopeId :: seen) rest

/-- The imports of all styles of a file. -/
def styleImports (file : FileAnalysis Ast) : List String :=
  file.styledComponents.map fun (component, style) =>
    styleImport file.fileId component.scopeId component.name style

end FileAnalysis

end ComponentAnalysis
