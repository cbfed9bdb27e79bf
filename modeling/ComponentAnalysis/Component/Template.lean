import ComponentAnalysis.Component.Bindings

/-! Compilers of markup templates. Analysis keeps the tree that a compiler makes and uses the names
that it reports. -/
namespace ComponentAnalysis

structure CompilerOptions where
  /-- Whether the compiled template is put into the component function. -/
  inlineTemplate : Bool := true
  deriving DecidableEq, Repr, Inhabited

/-- What a template compiler is given. -/
structure TemplateInput where
  component : String
  source : String
  range : Span
  bindings : Table BindingKind
  options : CompilerOptions

/-- What a template compiler makes of a template. -/
structure TemplateOutput (Ast : Type) where
  ast : Option Ast := none
  /-- The names that expressions and tags of the template use. -/
  references : List String := []

abbrev TemplateCompiler (Ast : Type) := TemplateInput → TemplateOutput Ast

namespace TemplateCompiler

/-- The compiler that makes nothing and reports nothing. -/
def silent (Ast : Type) : TemplateCompiler Ast := fun _ => {}

/-- The compiler that gives the same answer for every template. -/
def constant {Ast : Type} (output : TemplateOutput Ast) : TemplateCompiler Ast := fun _ => output

end TemplateCompiler

/-- What the word compiler records about a template. -/
structure TemplateWords where
  component : String
  inlined : Bool
  range : Span
  /-- Number of bytes of the template. -/
  length : Nat
  /-- Number of names bound in the component. -/
  bindings : Nat
  references : List String
  deriving DecidableEq, Repr

def isWordCharacter (c : Char) : Bool := c.isAlphanum || c == '_' || c == '$'

/-- The words of a text, each once, in order of first use. -/
def wordsOf (text : String) : List String :=
  ((text.toList.splitBy fun a b => isWordCharacter a == isWordCharacter b).filter fun run =>
    run.head?.any isWordCharacter).map String.ofList |>.eraseDups

/-- The compiler that reports the words of a template that are bound in its component. -/
def TemplateCompiler.words : TemplateCompiler TemplateWords := fun input =>
  let references := (wordsOf input.source).filter input.bindings.contains
  { ast := some
      { component := input.component
        inlined := input.options.inlineTemplate
        range := input.range
        length := Text.byteLength input.source.toList
        bindings := input.bindings.size
        references }
    references }

end ComponentAnalysis
