import ComponentAnalysis.Proofs.Component.Classification
import ComponentAnalysis.Proofs.Component.Declaration

/-! What static expressions consist of. All nodes of such an expression outside the types in it are
literals and operators on them, so its value depends on nothing around it. In particular it is no
call, so no variable that it initializes is bound as a ref or as a reactive object. -/
namespace ComponentAnalysis

namespace Kind

/-- Whether nodes of a kind put an expression beside a type. -/
def wrapsType : Kind → Bool
  | asType | satisfiesType | nonNull | typeAssertion | instantiation => true
  | _ => false

/-- Whether nodes of a kind have a value that only depends on those of their parts: literals,
templates with their texts, operators without an effect, parentheses and type wrappers. -/
def isStatic : Kind → Bool
  | string _ | number _ | boolean _ | null | bigint _ | template | templateText _ | unary | binary
  | logical | conditional | sequence | parenthesized => true
  | k => k.wrapsType

/-- Whether nodes of a kind read or change what is around them, or make code that may. -/
def usesEnvironment : Kind → Bool
  | reference _ | this | super | call | construct | importCall | taggedTemplate | member
  | computedMember | privateMember | privateIn | metaProperty | assignment | update | await | yield
  | function _ | arrow | classDefinition | classExpression => true
  | _ => false

/-- No kind that may be static depends on what is around it. -/
theorem usesEnvironment_eq_false {k : Kind} (h : k.isStatic = true) :
    k.usesEnvironment = false := by
  cases k <;> first | rfl | cases h

end Kind

namespace Tree

/-- The parts of a node that have values: none of a literal or a text, the expression in a type
wrapper without the type beside it, and all nodes directly below any other node. -/
def valueParts : Tree → List Tree
  | node (.string _) _ _ | node (.number _) _ _ | node (.boolean _) _ _ | node .null _ _
  | node (.bigint _) _ _ | node (.templateText _) _ _ => []
  | node .asType _ cs | node .satisfiesType _ cs | node .nonNull _ cs
  | node .instantiation _ cs => cs.take 1
  | node .typeAssertion _ cs => (cs.drop 1).take 1
  | node _ _ cs => cs

/-- A node stands in an expression, but in none of the types there. -/
inductive Holds : Tree → Tree → Prop where
  | self (t : Tree) : Holds t t
  | inPart {t c n : Tree} (hPart : c ∈ t.valueParts) (h : Holds c n) : Holds t n

/-- A node that a static expression may hold. A type wrapper has to have an expression in it. -/
structure IsStaticNode (n : Tree) : Prop where
  kind : n.kind.isStatic = true
  wraps : n.kind.wrapsType = true → n.valueParts ≠ []

theorem areStatic_iff {ts : List Tree} : areStatic ts = true ↔ ∀ t ∈ ts, t.isStatic = true := by
  induction ts with
  | nil => simp [areStatic]
  | cons t ts ih => simp [areStatic, ih]

/-- Parts with values are children. -/
theorem valueParts_subset (t : Tree) : t.valueParts ⊆ t.children := by
  obtain ⟨kind, span, children⟩ := t
  cases kind with
  | string _ | number _ | boolean _ | null | bigint _ | templateText _ => exact List.nil_subset _
  | asType | satisfiesType | nonNull | instantiation => exact List.take_subset 1 children
  | typeAssertion => exact List.Subset.trans (List.take_subset 1 _) (List.drop_subset 1 children)
  | _ => exact List.Subset.refl children

/-- An expression is static exactly if its top is a static node and its parts are static. -/
theorem isStatic_iff_parts (t : Tree) :
    t.isStatic = true ↔ t.IsStaticNode ∧ ∀ c ∈ t.valueParts, c.isStatic = true := by
  obtain ⟨kind, span, children⟩ := t
  have hNode : (node kind span children).IsStaticNode ↔ kind.isStatic = true ∧
      (kind.wrapsType = true → (node kind span children).valueParts ≠ []) :=
    ⟨fun h => ⟨h.kind, h.wraps⟩, fun h => ⟨h.1, h.2⟩⟩
  rw [hNode]
  cases kind with
  | asType | satisfiesType | nonNull | instantiation =>
      cases children <;> simp [isStatic, valueParts, Kind.isStatic, Kind.wrapsType]
  | typeAssertion =>
      rcases children with _ | ⟨type, _ | ⟨e, rest⟩⟩ <;>
        simp [isStatic, valueParts, Kind.isStatic, Kind.wrapsType]
  | _ => simp [isStatic, areStatic_iff, valueParts, Kind.isStatic, Kind.wrapsType]

/-- The nodes of a static expression are static. -/
theorem Holds.isStatic {e n : Tree} (h : e.Holds n) (hStatic : e.isStatic = true) :
    n.isStatic = true := by
  induction h with
  | self => exact hStatic
  | inPart hPart _ ih => exact ih (((isStatic_iff_parts _).mp hStatic).2 _ hPart)

/-- An expression is static exactly if it holds only static nodes. -/
theorem isStatic_iff_holds {e : Tree} :
    e.isStatic = true ↔ ∀ n, e.Holds n → n.IsStaticNode := by
  constructor
  · exact fun hStatic n hn => ((isStatic_iff_parts n).mp (hn.isStatic hStatic)).1
  · intro hNodes
    induction e with
    | node kind span children ih =>
        refine (isStatic_iff_parts _).mpr ⟨hNodes _ (.self _), fun c hc => ?_⟩
        exact ih c (valueParts_subset _ hc) fun n hn => hNodes n (.inPart hc hn)

/-- A static expression is static without its wrappers. -/
theorem isStatic_unwrap {e : Tree} (hStatic : e.isStatic = true) : e.unwrap.isStatic = true := by
  fun_induction unwrap e with
  | case6 span e rest ih => exact ih (areStatic_iff.mp hStatic e List.mem_cons_self)
  | case7 => exact hStatic
  | _ =>
      rename_i ih
      exact ih hStatic

/-- No static expression is a call. -/
theorem kind_ne_call_of_isStatic {e : Tree} (hStatic : e.isStatic = true) : e.kind ≠ .call := by
  intro hCall
  have hNode := ((isStatic_iff_parts e).mp hStatic).1.kind
  rw [hCall] at hNode
  cases hNode

/-- A variable with a static initializer is a plain constant of a body, whatever is imported. -/
theorem bodyKind_of_isStatic {d e : Tree} (apis : Reactivity) (hValue : d.declaratorValue? = some e)
    (hStatic : e.isStatic = true) : d.BodyKind apis .setupConst := by
  have hCall := kind_ne_call_of_isStatic (isStatic_unwrap hStatic)
  have hCallee : e.unwrap.calleeName? = none := calleeName?_eq_none hCall
  refine .other ?_ ?_
  · rintro ⟨name, value, -, hSame, ⟨macroName, hMacro, -⟩ | ⟨callee, hName, -⟩⟩
    · obtain rfl := Option.some.inj (hValue.symm.trans hSame)
      rw [macroName?_eq_none hCall] at hMacro
      cases hMacro
    · obtain rfl := Option.some.inj (hValue.symm.trans hSame)
      rw [hCallee] at hName
      cases hName
  · rintro ⟨name, value, callee, -, hSame, hName, -⟩
    obtain rfl := Option.some.inj (hValue.symm.trans hSame)
    rw [hCallee] at hName
    cases hName

end Tree

/-- A node declares a name and decides how it is bound in a component: the last in the body that
declares it, or, where the body, the props and the component do not have the name, the last in the
rest of the module. -/
inductive IsBoundBy (program : List Tree) (component : ComponentDeclaration) (f : Tree)
    (propsAlias : Option String) (name : String) (d : Tree) : Prop where
  | body {t : Tree}
      (hLast : IsLast (fun e => Tree.Declares name e.1 e.2)
        (nodesOf Tree.declarationNodes f.bodyStatements) (t, d))
  | module {t : Tree} (hBody : ∀ t ∈ f.bodyStatements, ∀ d, ¬ t.Declares name d)
      (hProps : propsAlias ≠ some name) (hSelf : name = "" ∨ component.name ≠ name)
      (hLast : IsLast (fun e => Tree.ModuleDeclares name e.1 e.2)
        (nodesOf Tree.moduleNodes (program.eraseIdx component.position)) (t, d))

section

variable {program : List Tree} {component : ComponentDeclaration} {f : Tree}
  {propsAlias : Option String} {name : String} {d e : Tree}

/-- A declaration in the rest of the module is never bound as a ref or a reactive object. -/
theorem exists_template_of_module (apis : Reactivity) {t : Tree}
    (hBody : ∀ t ∈ f.bodyStatements, ∀ d, ¬ t.Declares name d) (hProps : propsAlias ≠ some name)
    (hSelf : name = "" ∨ component.name ≠ name)
    (hLast : IsLast (fun e => Tree.ModuleDeclares name e.1 e.2)
      (nodesOf Tree.moduleNodes (program.eraseIdx component.position)) (t, d)) :
    ∃ kind, BindingScope.template program apis component f propsAlias name kind ∧
      kind ≠ .setupRef ∧ kind ≠ .setupReactiveConst := by
  have hNotBody : ∀ kind, ¬ BindingScope.body apis f name kind := by
    rintro kind ⟨u, n, hLast, -⟩
    exact hBody u (mem_nodesOf.mp hLast.mem).1 n hLast.holds
  have hNotProps : ∀ kind, ¬ BindingScope.props propsAlias name kind := fun kind h => hProps h.1
  have hNotSelf : ∀ kind, ¬ BindingScope.self component name kind := by
    rintro kind ⟨hName, hSome, -⟩
    exact hSelf.elim hSome fun hOther => hOther hName.symm
  have hKind : d.ModuleKind d.kindInModule := Tree.moduleKind_iff.mpr rfl
  refine ⟨d.kindInModule,
    Or.inr ⟨hNotBody, Or.inr ⟨hNotProps, Or.inr ⟨hNotSelf, t, d, hLast, hKind⟩⟩⟩, ?_⟩
  generalize d.kindInModule = kind at hKind
  cases hKind <;> exact ⟨BindingKind.noConfusion, BindingKind.noConfusion⟩

/-- A name that a declaration with a static initializer decides on is bound, but neither as a ref
nor as a reactive object. -/
theorem exists_binding_of_isStatic (apis : Reactivity) (hStatic : e.isStatic = true)
    (hValue : d.declaratorValue? = some e)
    (hBound : IsBoundBy program component f propsAlias name d) :
    ∃ kind, (classifyBindings program apis component f propsAlias).bindings.find? name = some kind ∧
      kind ≠ .setupRef ∧ kind ≠ .setupReactiveConst := by
  simp only [BindingScope.find?_bindings_iff]
  cases hBound with
  | body hLast =>
      have hKind := Tree.bodyKind_of_isStatic apis hValue hStatic
      exact ⟨.setupConst, Or.inl ⟨_, d, hLast, hKind⟩, BindingKind.noConfusion,
        BindingKind.noConfusion⟩
  | module hBody hProps hSelf hLast =>
      exact exists_template_of_module apis hBody hProps hSelf hLast

end

/-- An expression is static exactly if all nodes in it outside its types are literals, templates,
operators without an effect, parentheses or type wrappers. None of them uses what is around the
expression, and no declaration that it initializes is bound as a ref or as a reactive object,
whatever the file and its imports are. -/
theorem isStatic_environmentFree (e : Tree) :
    (e.isStatic = true ↔ ∀ n, e.Holds n → n.IsStaticNode) ∧
      (e.isStatic = true → ∀ n, e.Holds n → n.kind.usesEnvironment = false) ∧
      (e.isStatic = true → ∀ program apis component f propsAlias name d,
        d.declaratorValue? = some e → IsBoundBy program component f propsAlias name d →
          ∃ kind, (classifyBindings program apis component f propsAlias).bindings.find? name =
              some kind ∧ kind ≠ .setupRef ∧ kind ≠ .setupReactiveConst) := by
  refine ⟨Tree.isStatic_iff_holds, fun hStatic n hn => ?_, fun hStatic => ?_⟩
  · exact Kind.usesEnvironment_eq_false (Tree.isStatic_iff_holds.mp hStatic n hn).kind
  · intro program apis component f propsAlias name d hValue hBound
    exact exists_binding_of_isStatic apis hStatic hValue hBound

/-- The expression `-1 as number`. -/
def negativeOne : Tree :=
  .node .asType ⟨27, 39⟩
    [.node .unary ⟨27, 29⟩ [.node (.number "1") ⟨28, 29⟩ []], .node .otherType ⟨33, 39⟩ []]

def negativeDeclarator : Tree :=
  .node (.declarator .const) ⟨23, 39⟩ [.node (.binding "x") ⟨23, 24⟩ [], negativeOne]

/-- A component with a constant in its body. -/
def negativeStatement : Tree :=
  .node (.function .declaration) ⟨0, 61⟩
    [.node (.binding "A") ⟨9, 10⟩ [],
      .node .parameters ⟨10, 12⟩ [],
      .node .functionBody ⟨13, 61⟩
        [.node (.variableStatement .const) ⟨17, 39⟩ [negativeDeclarator],
          .node .returnStatement ⟨42, 59⟩
            [.node .taggedTemplate ⟨49, 59⟩
              [.node (.reference "vine") ⟨49, 53⟩ [],
                .node .template ⟨53, 59⟩ [.node (.templateText (some "<a/>")) ⟨54, 58⟩ []]]]]]

/-- A negated number beside a type, and a variable that it initializes. -/
theorem isStatic_environmentFree_negative :
    negativeOne.isStatic = true ∧
      (∀ n, negativeOne.Holds n → n.kind.usesEnvironment = false) ∧
      ∃ kind, (classifyBindings [negativeStatement] {} (.ofStatement 0 negativeStatement)
          negativeStatement none).bindings.find? "x" = some kind ∧
        kind ≠ .setupRef ∧ kind ≠ .setupReactiveConst := by
  have hStatic : negativeOne.isStatic = true := by decide
  obtain ⟨-, hFree, hBound⟩ := isStatic_environmentFree negativeOne
  refine ⟨hStatic, hFree hStatic, hBound hStatic _ _ _ _ none "x" negativeDeclarator rfl ?_⟩
  have hDeclares : (negativeStatement.bodyStatements.headI).Declares "x" negativeDeclarator :=
    .declarator .const .const _ _ [negativeDeclarator] _ _ List.mem_cons_self (.plain _ _)
  refine .body ⟨[], _, rfl, hDeclares, ?_⟩
  rintro ⟨t, d⟩ hLater hAgain
  obtain ⟨rfl, rfl⟩ := Prod.mk.inj (List.mem_singleton.mp hLater)
  exact absurd (Tree.declares_iff.mp hAgain).2 (by decide)

end ComponentAnalysis
