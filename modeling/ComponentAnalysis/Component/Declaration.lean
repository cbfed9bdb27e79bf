import ComponentAnalysis.Macro.Site
import ComponentAnalysis.Tree.Markup

/-! The components that a file declares. -/
namespace ComponentAnalysis

/-- A component as its top-level statement declares it. -/
structure ComponentDeclaration where
  /-- Position of the statement in the file. -/
  position : Nat
  statement : Tree
  /-- The component function, if the declaration is one. -/
  function : Option Tree
  name : String
  exportKind : ExportKind
  sites : List MacroSite
  markup : Option Markup
  deriving Repr

namespace ComponentDeclaration

def span (component : ComponentDeclaration) : Span := component.statement.span

/-- The component that a statement declares. -/
def ofStatement (position : Nat) (statement : Tree) : ComponentDeclaration :=
  let (function, name) := statement.functionInfo
  { position, statement, function, name
    exportKind := statement.exportKind
    sites := function.elim [] Tree.macroSites
    markup := function.bind Tree.markup? }

end ComponentDeclaration

/-- All components that the top-level statements of a file declare, in order. -/
def componentsOf (program : List Tree) : List ComponentDeclaration :=
  program.zipIdx.filterMap fun (statement, position) =>
    if statement.isComponent then some (.ofStatement position statement) else none

end ComponentAnalysis
