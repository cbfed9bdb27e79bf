import ComponentAnalysis.Macro.Name
import ComponentAnalysis.Proofs.Tree.Preorder
import ComponentAnalysis.Tree.Markup
import Mathlib.Data.List.Forall2

/-! Parentheses and type wrappers. A script may be written anew with any number of them around its
initializers, around the arguments of its calls and around the values that it returns. What the
script declares and what its values are without wrappers then stays the same, up to its places in
the text. -/
namespace ComponentAnalysis

/-- One layer around an expression, with its place in the text. -/
inductive Wrapper where
  | parentheses (span : Span)
  | asType (span : Span) (type : Tree)
  | satisfiesType (span : Span) (type : Tree)
  | nonNull (span : Span)
  | typeAssertion (span : Span) (type : Tree)
  | instantiation (span : Span) (arguments : Tree)

/-- The expression with a layer around it. -/
def Wrapper.around : Wrapper → Tree → Tree
  | parentheses span, e => .node .parenthesized span [e]
  | asType span type, e => .node .asType span [e, type]
  | satisfiesType span type, e => .node .satisfiesType span [e, type]
  | nonNull span, e => .node .nonNull span [e]
  | typeAssertion span type, e => .node .typeAssertion span [type, e]
  | instantiation span arguments, e => .node .instantiation span [e, arguments]

namespace Tree

/-- The expression with layers around it, the outermost of which comes first. -/
def wrap (layers : List Wrapper) (e : Tree) : Tree := layers.foldr Wrapper.around e

@[simp]
theorem wrap_nil (e : Tree) : wrap [] e = e := rfl

@[simp]
theorem wrap_cons (layer : Wrapper) (layers : List Wrapper) (e : Tree) :
    wrap (layer :: layers) e = layer.around (wrap layers e) := rfl

/-- Layers make no difference to the value inside them. -/
theorem unwrap_wrap (layers : List Wrapper) (e : Tree) : (wrap layers e).unwrap = e.unwrap := by
  induction layers with
  | nil => rfl
  | cons layer layers ih => cases layer <;> simpa [Wrapper.around, unwrap] using ih

/-- They make no expression static and keep none from being so. -/
theorem isStatic_wrap (layers : List Wrapper) (e : Tree) :
    (wrap layers e).isStatic = e.isStatic := by
  induction layers with
  | nil => rfl
  | cons layer layers ih => cases layer <;> simpa [Wrapper.around, isStatic, areStatic] using ih

end Tree

/-- Whether a part of a declarator, a call or a return statement is a value. -/
def Kind.isValue : Kind → Bool
  | typeAscription | typeArguments | spread | templateText _ => false
  | _ => true

/-- A value in layers is a value. -/
theorem Tree.isValue_kind_wrap {e : Tree} (h : e.kind.isValue = true) (layers : List Wrapper) :
    (wrap layers e).kind.isValue = true := by
  induction layers with
  | nil => exact h
  | cons layer layers ih => cases layer <;> rfl

/-- Where a part of a text stands once some bytes are written before a value in the text, and some
behind it. Parts of the value are moved behind the first bytes, and parts that the value is in, or
that follow it, are moved or extended by both. -/
def Span.behindInsertion (span value : Span) (before after : Nat) : Span :=
  if span.Within value then ⟨span.start + before, span.stop + before⟩
  else
    ⟨if value.stop ≤ span.start then span.start + before + after else span.start,
      if value.stop ≤ span.stop then span.stop + before + after else span.stop⟩

/-- A way to write a script anew: where its parts stand then, and the layers around the values of
declarators, calls and return statements, by the new places of these values. The layers of a single
value give the script with that value in wrappers. -/
structure Rewrapping where
  moved : Span → Span
  initializer : Span → List Wrapper
  argument : Span → List Wrapper
  returned : Span → List Wrapper

namespace Rewrapping

/-- A part of a node, in its layers if it is a value. -/
def dressed (layers : Span → List Wrapper) (part : Tree) : Tree :=
  if part.kind.isValue then part.wrap (layers part.span) else part

/-- A dressed part is the part in some layers, or in none. -/
theorem exists_dressed_eq_wrap (layers : Span → List Wrapper) (part : Tree) :
    ∃ around, dressed layers part = part.wrap around := by
  unfold dressed
  split
  · exact ⟨_, rfl⟩
  · exact ⟨[], rfl⟩

/-- So it is the same without its wrappers. -/
theorem unwrap_dressed (layers : Span → List Wrapper) (part : Tree) :
    (dressed layers part).unwrap = part.unwrap := by
  obtain ⟨around, hWrap⟩ := exists_dressed_eq_wrap layers part
  rw [hWrap, Tree.unwrap_wrap]

theorem isStatic_dressed (layers : Span → List Wrapper) (part : Tree) :
    (dressed layers part).isStatic = part.isStatic := by
  obtain ⟨around, hWrap⟩ := exists_dressed_eq_wrap layers part
  rw [hWrap, Tree.isStatic_wrap]

/-- Layers are put around values only, and then there is a value again. -/
theorem kind_dressed_eq_iff (layers : Span → List Wrapper) (part : Tree) {kind : Kind}
    (hKind : kind.isValue = false) : (dressed layers part).kind = kind ↔ part.kind = kind := by
  unfold dressed
  split
  · rename_i hValue
    have hWrapped := part.isValue_kind_wrap hValue (layers part.span)
    exact ⟨fun h => by simp [h, hKind] at hWrapped, fun h => by simp [h, hKind] at hValue⟩
  · rfl

variable (r : Rewrapping)

/-- The parts of a node, with layers around the values among them. The first part of a declarator is
its pattern, and that of a call its callee. -/
def dress (kind : Kind) (parts : List Tree) : List Tree :=
  match kind, parts with
  | .declarator _, pattern :: rest => pattern :: rest.map (dressed r.initializer)
  | .call, callee :: rest => callee :: rest.map (dressed r.argument)
  | .returnStatement, parts => parts.map (dressed r.returned)
  | _, parts => parts

/-- Without layers a part stays as it is. -/
theorem dressed_eq_self {layers : Span → List Wrapper} {part : Tree}
    (h : layers part.span = []) : dressed layers part = part := by
  rw [dressed, h, Tree.wrap_nil, ite_self]

theorem dressed_nil (part : Tree) : dressed (fun _ => []) part = part := dressed_eq_self rfl

/-- Dressing the parts of a node changes no part but by layers around it, and neither adds nor drops
any. -/
theorem forall₂_dress (kind : Kind) (parts : List Tree) :
    List.Forall₂ (fun part part' => ∃ layers, part' = dressed layers part) parts
      (r.dress kind parts) := by
  have hSame : ∀ parts : List Tree,
      List.Forall₂ (fun part part' => ∃ layers, part' = dressed layers part) parts parts :=
    fun parts => List.forall₂_same.mpr fun part _ => ⟨fun _ => [], (dressed_nil part).symm⟩
  have hMap : ∀ (layers : Span → List Wrapper) (parts : List Tree),
      List.Forall₂ (fun part part' => ∃ layers, part' = dressed layers part) parts
        (parts.map (dressed layers)) := fun layers parts =>
    List.forall₂_map_right_iff.mpr (List.forall₂_same.mpr fun _ _ => ⟨layers, rfl⟩)
  unfold dress
  split
  · exact .cons ⟨fun _ => [], (dressed_nil _).symm⟩ (hMap _ _)
  · exact .cons ⟨fun _ => [], (dressed_nil _).symm⟩ (hMap _ _)
  · exact hMap _ _
  · exact hSame _

mutual

/-- The tree written anew. -/
def apply : Tree → Tree
  | .node kind span children => .node kind (r.moved span) (r.dress kind (applyAll children))

def applyAll : List Tree → List Tree
  | [] => []
  | t :: ts => apply t :: applyAll ts

end

theorem applyAll_eq_map (ts : List Tree) : r.applyAll ts = ts.map r.apply := by
  induction ts with
  | nil => rfl
  | cons t ts ih => rw [applyAll, ih, List.map_cons]

@[simp]
theorem apply_node (kind : Kind) (span : Span) (children : List Tree) :
    r.apply (.node kind span children) =
      .node kind (r.moved span) (r.dress kind (children.map r.apply)) := by
  rw [apply, applyAll_eq_map]

/-- Nodes keep their kinds, so all that is read off a kind stays the same. -/
@[simp]
theorem kind_apply (t : Tree) : (r.apply t).kind = t.kind := by
  cases t
  rfl

@[simp]
theorem span_apply (t : Tree) : (r.apply t).span = r.moved t.span := by
  cases t
  rfl

/-- Below a node, the parts are written anew and then dressed. -/
theorem children_apply (t : Tree) :
    (r.apply t).children = r.dress t.kind (t.children.map r.apply) := by
  cases t
  rw [apply_node]
  rfl

/-- Each child is written anew, perhaps in layers. -/
theorem forall₂_children_apply (t : Tree) :
    List.Forall₂ (fun c c' => ∃ layers, c' = dressed layers (r.apply c)) t.children
      (r.apply t).children := by
  rw [children_apply]
  exact List.forall₂_map_left_iff.mp (r.forall₂_dress t.kind _)

/-- Each child is still there, in some layers. -/
theorem exists_dressed_mem_children {c t : Tree} (h : c ∈ t.children) :
    ∃ layers, dressed layers (r.apply c) ∈ (r.apply t).children := by
  have hEach := r.forall₂_children_apply t
  generalize t.children = cs, (r.apply t).children = cs' at h hEach ⊢
  induction hEach with
  | nil => cases h
  | cons hHead _ ih =>
      rcases List.mem_cons.mp h with rfl | h
      · obtain ⟨layers, rfl⟩ := hHead
        exact ⟨layers, List.mem_cons_self⟩
      · obtain ⟨layers, hMem⟩ := ih h
        exact ⟨layers, List.mem_cons_of_mem _ hMem⟩

/-- The value of an expression without its wrappers is the former value, written anew. -/
theorem unwrap_apply (t : Tree) : (r.apply t).unwrap = r.apply t.unwrap := by
  induction t with
  | node kind span children ih =>
      -- Wrappers keep their parts, so each goes on with its expression, if it has one.
      cases kind with
      | asType | satisfiesType | nonNull | instantiation | parenthesized =>
          rcases children with _ | ⟨e, rest⟩
          · rfl
          · exact ih e List.mem_cons_self
      | typeAssertion =>
          rcases children with _ | ⟨type, _ | ⟨e, rest⟩⟩
          · rfl
          · rfl
          · exact ih e (List.mem_cons_of_mem type List.mem_cons_self)
      | _ => rfl

theorem referenceName?_apply (t : Tree) : (r.apply t).referenceName? = t.referenceName? := by
  obtain ⟨kind, span, children⟩ := t
  cases kind <;> rfl

theorem bindingName?_apply (t : Tree) : (r.apply t).bindingName? = t.bindingName? := by
  obtain ⟨kind, span, children⟩ := t
  cases kind <;> rfl

/-- Callees are not dressed. -/
theorem callee?_apply (t : Tree) : (r.apply t).callee? = t.callee?.map r.apply := by
  obtain ⟨kind, span, _ | ⟨callee, rest⟩⟩ := t <;> cases kind <;> rfl

theorem calleeName?_apply (t : Tree) : (r.apply t).calleeName? = t.calleeName? := by
  rw [Tree.calleeName?, callee?_apply, Option.bind_map]
  exact congrArg t.callee?.bind (funext r.referenceName?_apply)

theorem ofCallee?_apply (t : Tree) : MacroName.ofCallee? (r.apply t) = MacroName.ofCallee? t := by
  obtain ⟨kind, span, children⟩ := t
  cases kind with
  | member =>
      rcases children with _ | ⟨⟨kind, _, _⟩, _ | ⟨⟨kind', _, _⟩, _ | ⟨_, _⟩⟩⟩
      · rfl
      · cases kind <;> rfl
      · cases kind with
        | reference name => cases kind' <;> rfl
        | _ => rfl
      · cases kind with
        | reference name => cases kind' <;> rfl
        | _ => rfl
  | _ => rfl

/-- A call is the same macro as before, or none. -/
theorem macroName?_apply (t : Tree) : (r.apply t).macroName? = t.macroName? := by
  rw [Tree.macroName?, callee?_apply, Option.bind_map]
  exact congrArg t.callee?.bind (funext r.ofCallee?_apply)

theorem isMacroCall_apply (t : Tree) : (r.apply t).isMacroCall = t.isMacroCall := by
  rw [Tree.isMacroCall, macroName?_apply]
  rfl

/-- A tagged template keeps its tag and its template. -/
theorem tagged?_apply (t : Tree) :
    (r.apply t).tagged? =
      t.tagged?.map fun (tag, template) => (r.apply tag, r.apply template) := by
  obtain ⟨kind, span, _ | ⟨tag, rest⟩⟩ := t
  · cases kind <;> rfl
  · cases kind with
    | taggedTemplate =>
        simp only [apply_node, dress, List.map_cons, Tree.tagged?, List.getLast?_map,
          Option.map_map, Function.comp_def]
    | _ => rfl

theorem isInterpolated_apply (t : Tree) : (r.apply t).isInterpolated = t.isInterpolated := by
  have hEach := r.forall₂_children_apply t
  unfold Tree.isInterpolated
  generalize t.children = ts, (r.apply t).children = ts' at hEach
  induction hEach with
  | nil => rfl
  | @cons part part' ts ts' hPart _ ih =>
      obtain ⟨layers, rfl⟩ := hPart
      rw [List.any_cons, List.any_cons, ih]
      congr 1
      -- A text between interpolations is no value, so it stays a text, and nothing becomes one.
      have hText : ∀ text, (dressed layers (r.apply part)).kind = .templateText text ↔
          part.kind = .templateText text := fun text => by
        rw [kind_dressed_eq_iff _ _ rfl, kind_apply]
      split <;> split <;> simp_all

/-- Static expressions stay static, if each of them does. -/
theorem areStatic_map (ts : List Tree) (h : ∀ t ∈ ts, (r.apply t).isStatic = t.isStatic) :
    Tree.areStatic (ts.map r.apply) = Tree.areStatic ts := by
  induction ts with
  | nil => rfl
  | cons t ts ih =>
      rw [List.map_cons, Tree.areStatic, Tree.areStatic, h t List.mem_cons_self,
        ih fun u hu => h u (List.mem_cons_of_mem t hu)]

/-- What is static does not depend on wrappers. -/
theorem isStatic_apply (t : Tree) : (r.apply t).isStatic = t.isStatic := by
  induction t with
  | node kind span children ih =>
      cases kind with
      | asType | satisfiesType | nonNull | instantiation =>
          rcases children with _ | ⟨e, rest⟩
          · rfl
          · exact ih e List.mem_cons_self
      | typeAssertion =>
          rcases children with _ | ⟨type, _ | ⟨e, rest⟩⟩
          · rfl
          · rfl
          · exact ih e (List.mem_cons_of_mem type List.mem_cons_self)
      | unary | logical | binary | conditional | sequence | template | parenthesized =>
          simpa only [apply_node, dress, Tree.isStatic] using r.areStatic_map children ih
      | _ => rfl

/-- The last of several expressions is no ref just if it was none before. -/
theorem lastIsNeverRef_map (name : Option String) (ts : List Tree)
    (h : ∀ t ∈ ts, (r.apply t).isNeverRef name = t.isNeverRef name) :
    Tree.isNeverRef.lastIsNeverRef name (ts.map r.apply) =
      Tree.isNeverRef.lastIsNeverRef name ts := by
  induction ts with
  | nil => rfl
  | cons t ts ih =>
      cases ts with
      | nil => exact h t List.mem_cons_self
      | cons u us => exact ih fun v hv => h v (List.mem_cons_of_mem t hv)

/-- What certainly is no ref does not depend on wrappers either. -/
theorem isNeverRef_apply (name : Option String) (t : Tree) :
    (r.apply t).isNeverRef name = t.isNeverRef name := by
  induction t with
  | node kind span children ih =>
      have hName := r.calleeName?_apply (.node kind span children)
      cases kind with
      | sequence =>
          simpa only [apply_node, dress, Tree.isNeverRef]
            using r.lastIsNeverRef_map name children ih
      | _ =>
          simp only [apply_node, Tree.isNeverRef] at hName ⊢
          rw [hName]
          rfl

theorem patternNamesAll_map (ts : List Tree)
    (h : ∀ t ∈ ts, (r.apply t).patternNames = t.patternNames) :
    Tree.patternNamesAll (ts.map r.apply) = Tree.patternNamesAll ts := by
  induction ts with
  | nil => rfl
  | cons t ts ih =>
      rw [List.map_cons, Tree.patternNamesAll, Tree.patternNamesAll, h t List.mem_cons_self,
        ih fun u hu => h u (List.mem_cons_of_mem t hu)]

/-- A pattern binds the same names in the same order. -/
theorem patternNames_apply (t : Tree) : (r.apply t).patternNames = t.patternNames := by
  induction t with
  | node kind span children ih =>
      cases kind with
      | objectPattern | arrayPattern | restPattern =>
          simpa only [apply_node, dress, Tree.patternNames] using r.patternNamesAll_map children ih
      | bindingProperty =>
          rcases children with _ | ⟨key, _ | ⟨value, rest⟩⟩
          · rfl
          · rfl
          · exact ih value (List.mem_cons_of_mem key List.mem_cons_self)
      | defaultPattern =>
          rcases children with _ | ⟨pattern, rest⟩
          · rfl
          · exact ih pattern List.mem_cons_self
      | _ => rfl

/-! Statements. -/

@[simp]
theorem exportableForm_apply (t : Tree) : (r.apply t).exportableForm = t.exportableForm := by
  rw [Tree.exportableForm, kind_apply]
  rfl

/-- A statement exports what it exported, written anew. -/
theorem declared_apply (t : Tree) : (r.apply t).declared = r.apply t.declared := by
  obtain ⟨kind, span, _ | ⟨d, rest⟩⟩ := t
  · cases kind <;> rfl
  · cases kind with
    | exportNamed =>
        simp only [apply_node, dress, List.map_cons, Tree.declared, exportableForm_apply]
        split <;> simp
        rfl
    | exportDefault =>
        simp only [apply_node, dress, List.map_cons, Tree.declared, exportableForm_apply]
        split <;> simp
        rfl
    | _ => rfl

/-- It declares names in the same form. -/
theorem declarationForm_apply (t : Tree) : (r.apply t).declarationForm = t.declarationForm := by
  simp only [Tree.declarationForm, kind_apply, declared_apply, exportableForm_apply]

theorem isFunction_apply (t : Tree) : (r.apply t).isFunction = t.isFunction := by
  rw [Tree.isFunction, kind_apply]
  rfl

/-- It has the same variables, written anew. -/
theorem declarators_apply (t : Tree) : (r.apply t).declarators = t.declarators.map r.apply := by
  obtain ⟨kind, span, children⟩ := t
  cases kind with
  | variableStatement keyword => exact r.applyAll_eq_map children
  | _ => rfl

theorem declaratorPattern?_apply (t : Tree) :
    (r.apply t).declaratorPattern? = t.declaratorPattern?.map r.apply := by
  obtain ⟨kind, span, _ | ⟨pattern, rest⟩⟩ := t <;> cases kind <;> rfl

theorem declaratorName?_apply (t : Tree) : (r.apply t).declaratorName? = t.declaratorName? := by
  rw [Tree.declaratorName?, declaratorPattern?_apply, Option.bind_map]
  exact congrArg t.declaratorPattern?.bind (funext r.bindingName?_apply)

theorem isConstDeclarator_apply (t : Tree) :
    (r.apply t).isConstDeclarator = t.isConstDeclarator := by
  rw [Tree.isConstDeclarator, kind_apply]
  rfl

/-- A variable has its value in the layers for initializers. -/
theorem declaratorValue?_apply (t : Tree) :
    (r.apply t).declaratorValue? =
      t.declaratorValue?.map fun value => dressed r.initializer (r.apply value) := by
  obtain ⟨kind, span, _ | ⟨pattern, rest⟩⟩ := t
  · cases kind <;> rfl
  · cases kind with
    | declarator keyword =>
        have hKind : ∀ value : Tree,
            (dressed r.initializer (r.apply value)).kind ≠ .typeAscription ↔
              value.kind ≠ .typeAscription := fun value => by
          rw [Ne, kind_dressed_eq_iff _ _ rfl, kind_apply]
        simp only [apply_node, dress, List.map_cons, List.map_map, Tree.declaratorValue?,
          List.find?_map, Function.comp_def, hKind]
    | _ => rfl

/-- The initializer of a variable without its wrappers. -/
theorem map_unwrap_declaratorValue?_apply (t : Tree) :
    (r.apply t).declaratorValue?.map Tree.unwrap =
      (t.declaratorValue?.map Tree.unwrap).map r.apply := by
  rw [declaratorValue?_apply, Option.map_map, Option.map_map]
  refine congrArg t.declaratorValue?.map (funext fun value => ?_)
  exact (unwrap_dressed _ _).trans (r.unwrap_apply value)

/-- Its value is static just if it was so. -/
theorem any_isStatic_declaratorValue?_apply (t : Tree) :
    (r.apply t).declaratorValue?.any Tree.isStatic = t.declaratorValue?.any Tree.isStatic := by
  rw [declaratorValue?_apply]
  cases t.declaratorValue? with
  | none => rfl
  | some value => exact (isStatic_dressed _ _).trans (r.isStatic_apply value)

/-- A declaration that may be exported is none of the nodes that hold values. -/
theorem children_apply_of_exportableForm {t : Tree} (h : t.exportableForm ≠ .other) :
    (r.apply t).children = t.children.map r.apply := by
  rw [children_apply]
  obtain ⟨kind, span, children⟩ := t
  cases kind <;> first | rfl | exact absurd rfl h

/-- A declaration keeps its name. -/
theorem declaredName?_apply {t : Tree} (h : t.exportableForm ≠ .other) :
    (r.apply t).declaredName? = t.declaredName? := by
  rw [Tree.declaredName?, r.children_apply_of_exportableForm h, List.findSome?_map]
  exact congrArg (List.findSome? · t.children) (funext r.bindingName?_apply)

/-- A statement declares the same function as before, under the same name. -/
theorem functionInfo_apply (t : Tree) :
    (r.apply t).functionInfo = (t.functionInfo.1.map r.apply, t.functionInfo.2) := by
  simp only [Tree.functionInfo, declared_apply, exportableForm_apply]
  split
  · rename_i hForm
    rw [r.declaredName?_apply (by simp [hForm])]
    rfl
  · rw [declarators_apply, List.head?_map]
    cases t.declared.declarators.head? with
    | none => rfl
    | some first =>
        simp only [Option.map_some, declaratorName?_apply, map_unwrap_declaratorValue?_apply]
        cases first.declaratorName? with
        | none => rfl
        | some name =>
            simp only [Option.filter_map, Function.comp_def, isFunction_apply]
  · rfl

/-- A function has the same statements, written anew. -/
theorem bodyStatements_apply {f : Tree} (h : f.isFunction = true) :
    (r.apply f).bodyStatements = f.bodyStatements.map r.apply := by
  have hChildren : (r.apply f).children = f.children.map r.apply := by
    rw [children_apply]
    obtain ⟨kind, span, children⟩ := f
    cases kind <;> first | rfl | cases h
  simp only [Tree.bodyStatements, Tree.child?, hChildren, List.find?_map, Function.comp_def,
    kind_apply]
  cases hBody : f.children.find? fun c => decide (c.kind = .functionBody) with
  | none => rfl
  | some body =>
      have hKind : body.kind = .functionBody := by simpa using List.find?_some hBody
      simp only [Option.map_some, children_apply, hKind, dress, List.filter_map, Function.comp_def,
        kind_apply]

end Rewrapping

end ComponentAnalysis
