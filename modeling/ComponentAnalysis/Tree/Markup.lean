import ComponentAnalysis.Tree.Statement

/-! Markup templates returned by functions. -/
namespace ComponentAnalysis

/-- A returned markup template: the whole tagged template, the text between its backticks and
whether it has interpolations. -/
structure Markup where
  span : Span
  content : Span
  isInterpolated : Bool
  deriving DecidableEq, Repr

/-- The tag of markup templates. -/
def markupTag : String := "vine"

namespace Tree

/-- Whether an expression is a template with the markup tag. -/
def isMarkup (t : Tree) : Bool :=
  match t.tagged? with
  | some (tag, _) => tag.referenceName? = some markupTag
  | none => false

/-- The markup template that a return statement returns. -/
def returnedMarkup? : Tree → Option Markup
  | node .returnStatement _ (value :: _) =>
    if value.isMarkup then
      value.tagged?.map fun (_, template) =>
        ⟨value.span, template.span.inner, template.isInterpolated⟩
    else none
  | _ => none

/-- The markup templates returned anywhere in a node, in the order of the walk. -/
def returnedMarkups (t : Tree) : List Markup := t.preorder.filterMap returnedMarkup?

/-- The markup template of a function: the last one returned anywhere in it. -/
def markup? (t : Tree) : Option Markup := t.returnedMarkups.getLast?

/-- Whether a top-level statement declares a component: a function or variables with a return of a
markup template anywhere inside. -/
def isComponent (t : Tree) : Bool :=
  (t.declared.exportableForm = .function || t.declared.exportableForm = .variable) &&
    !t.declared.returnedMarkups.isEmpty

end Tree

end ComponentAnalysis
