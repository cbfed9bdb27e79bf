import ComponentAnalysis.Table
import ComponentAnalysis.Tree.Basic

/-! The imports of a file, and which names stand for the constructors of refs and of reactive
objects. -/
namespace ComponentAnalysis

/-- What a local name imports. -/
structure ImportRecord where
  source : String
  isType : Bool := false
  isNamespace : Bool := false
  isUsedInTemplate : Bool := false
  deriving DecidableEq, Repr

structure Imports where
  /-- The import of each local name. -/
  records : Table ImportRecord := .empty
  /-- The local name of each item imported by name from the framework's module. -/
  aliases : Table String := .empty

/-- The module that holds the constructors. -/
def reactivityModule : String := "vue"

/-- One local name that an import declaration binds. -/
structure ImportedName where
  localName : String
  /-- The name of the item in its module, unless it is the default item or the whole module. -/
  imported : Option String
  record : ImportRecord
  deriving DecidableEq, Repr

namespace Tree

/-- The name of the module that an import declaration reads. -/
def moduleName (t : Tree) : String :=
  (t.children.findSome? fun c =>
    match c.kind with
    | .string value => some value
    | _ => none).getD ""

/-- The local name that one specifier of an import binds. -/
def specifierName? (source : String) (typeOnly : Bool) : Tree → Option ImportedName
  | node .importDefault _ [node (.binding name) _ _] =>
    some ⟨name, none, { source, isType := typeOnly }⟩
  | node .importNamespace _ [node (.binding name) _ _] =>
    some ⟨name, none, { source, isType := typeOnly, isNamespace := true }⟩
  | node (.importNamed isType) _ [node (.name item) _ _, node (.binding name) _ _]
  | node (.importNamed isType) _ [node (.string item) _ _, node (.binding name) _ _] =>
    some ⟨name, some item, { source, isType := typeOnly || isType }⟩
  | _ => none

/-- The local names that a top-level statement imports, in order. -/
def importedNames (t : Tree) : List ImportedName :=
  match t.kind with
  | .importDeclaration typeOnly => t.children.filterMap (specifierName? t.moduleName typeOnly)
  | _ => []

end Tree

namespace Imports

def add (imports : Imports) (name : ImportedName) : Imports where
  records := imports.records.insert name.localName name.record
  aliases :=
    match name.imported with
    | some item =>
      if name.record.source = reactivityModule then imports.aliases.insert item name.localName
      else imports.aliases
    | none => imports.aliases

def ofProgram (program : List Tree) : Imports :=
  (program.flatMap Tree.importedNames).foldl add {}

end Imports

/-- What a constructor gives. -/
inductive ReactiveCall where
  /-- A ref, read through its `value`. -/
  | ref
  /-- A reactive object. -/
  | reactive
  deriving DecidableEq, Repr

namespace ReactiveCall

/-- The constructor with the given name in its module. -/
def ofItem? (item : String) : Option ReactiveCall :=
  if ["ref", "shallowRef", "computed", "customRef", "toRef"].contains item then some ref
  else if ["reactive", "shallowReactive"].contains item then some reactive
  else none

end ReactiveCall

/-- Which callee names construct refs and reactive objects in a file. -/
structure Reactivity where
  /-- Local names of constructors. -/
  locals : Table ReactiveCall := .empty
  /-- Local names imported from other modules. -/
  foreign : List String := []
  /-- The local name of `reactive`, if it is imported. -/
  reactiveAlias : Option String := none

namespace Imports

def reactivity (imports : Imports) : Reactivity where
  locals := .ofList <| imports.aliases.entries.filterMap fun (item, name) =>
    (ReactiveCall.ofItem? item).map fun call => (name, call)
  foreign := (imports.records.entries.filter fun (_, r) => r.source ≠ reactivityModule).map Prod.fst
  reactiveAlias := imports.aliases.find? "reactive"

end Imports

namespace Reactivity

/-- What a call of a name constructs. Without an import the names stand for themselves. -/
def callee? (apis : Reactivity) (name : String) : Option ReactiveCall :=
  match apis.locals.find? name with
  | some call => some call
  | none => if apis.foreign.contains name then none else ReactiveCall.ofItem? name

/-- The name that constructs reactive objects, unless it is imported from another module. -/
def reactiveName (apis : Reactivity) : Option String :=
  match apis.reactiveAlias with
  | some name => some name
  | none => if apis.foreign.contains "reactive" then none else some "reactive"

end Reactivity

end ComponentAnalysis
