import ComponentAnalysis.Component.Bindings
import ComponentAnalysis.Proofs.Table
import ComponentAnalysis.Proofs.Tree.Preorder

/-! Which statements at the top of a component's body declare a name. The table that the analysis of
bindings fills keeps the number of the last one, however often the name is declared. -/
namespace ComponentAnalysis

namespace Tree

/-- A pattern binds a name. -/
inductive Binds (name : String) : Tree → Prop where
  | plain (span : Span) (children : List Tree) : Binds name (.node (.binding name) span children)
  | nested {kind : Kind} (span : Span) (children : List Tree) {child : Tree}
      (hKind : kind = .objectPattern ∨ kind = .arrayPattern ∨ kind = .restPattern)
      (hChild : child ∈ children) (h : Binds name child) : Binds name (.node kind span children)
  | property (span : Span) (key value : Tree) (rest : List Tree) (h : Binds name value) :
      Binds name (.node .bindingProperty span (key :: value :: rest))
  | withDefault (span : Span) (pattern : Tree) (rest : List Tree) (h : Binds name pattern) :
      Binds name (.node .defaultPattern span (pattern :: rest))

/-- A statement declares a name by one of its nodes: by a declarator whose pattern binds it, or as
the function, class or enum of that name. -/
inductive Declares (name : String) : Tree → Tree → Prop where
  | declarator (kind kind' : VariableKind) (span span' : Span) (declarators rest : List Tree)
      (pattern : Tree) (hMem : .node (.declarator kind') span' (pattern :: rest) ∈ declarators)
      (h : pattern.Binds name) :
      Declares name (.node (.variableStatement kind) span declarators)
        (.node (.declarator kind') span' (pattern :: rest))
  | named (statement : Tree)
      (hKind : statement.kind = .function .declaration ∨ statement.kind = .classDefinition ∨
        statement.kind = .enumDeclaration)
      (hName : statement.declaredName? = some name) : Declares name statement statement

theorem mem_patternNamesAll {ts : List Tree} {name : String} :
    name ∈ patternNamesAll ts ↔ ∃ t ∈ ts, name ∈ t.patternNames := by
  induction ts with
  | nil => simp [patternNamesAll]
  | cons t ts ih => simp [patternNamesAll, ih]

/-- The names collected from a pattern are those that it binds. -/
theorem mem_patternNames {t : Tree} {name : String} : name ∈ t.patternNames ↔ t.Binds name := by
  constructor
  · intro h
    induction t with
    | node kind span children ih =>
        have hNested : name ∈ patternNamesAll children →
            (kind = .objectPattern ∨ kind = .arrayPattern ∨ kind = .restPattern) →
            Binds name (.node kind span children) := by
          intro hAll hKind
          obtain ⟨child, hChild, hName⟩ := mem_patternNamesAll.mp hAll
          exact Binds.nested span children hKind hChild (ih child hChild hName)
        -- Keys and default values bind nothing, so one child of a property is followed.
        unfold patternNames at h
        split at h
        · rename_i hEq
          cases hEq
          obtain rfl := List.mem_singleton.mp h
          exact Binds.plain span children
        · rename_i hEq
          cases hEq
          exact hNested h (Or.inl rfl)
        · rename_i hEq
          cases hEq
          exact hNested h (Or.inr (Or.inl rfl))
        · rename_i hEq
          cases hEq
          exact hNested h (Or.inr (Or.inr rfl))
        · rename_i key value rest hEq
          cases hEq
          exact Binds.property span key value rest
            (ih value (List.mem_cons_of_mem key List.mem_cons_self) h)
        · rename_i pattern rest hEq
          cases hEq
          exact Binds.withDefault span pattern rest (ih pattern List.mem_cons_self h)
        · cases h
  · intro h
    induction h with
    | plain span children => simp [patternNames]
    | nested span children hKind hChild _ ih =>
        have hAll : name ∈ patternNamesAll children := mem_patternNamesAll.mpr ⟨_, hChild, ih⟩
        rcases hKind with rfl | rfl | rfl <;> simpa only [patternNames] using hAll
    | property span key value rest _ ih => simpa only [patternNames] using ih
    | withDefault span pattern rest _ ih => simpa only [patternNames] using ih

/-- The names that a statement declares, one for each time it does. -/
def declaredNames (t : Tree) : List String :=
  match t.exportableForm with
  | .variable => t.declarators.flatMap fun d => d.declaratorPattern?.elim [] patternNames
  | .function | .classDefinition | .enumeration => t.declaredName?.toList
  | _ => []

/-- A plain name is the only name that a declarator's pattern binds. -/
theorem patternNames_of_declaratorName? {d : Tree} {name : String}
    (h : d.declaratorName? = some name) : d.declaratorPattern?.elim [] patternNames = [name] := by
  obtain ⟨pattern, hPattern, hBinding⟩ := Option.bind_eq_some_iff.mp h
  rw [hPattern]
  cases pattern with
  | node kind span children =>
      cases kind <;> simp [bindingName?] at hBinding
      simp [patternNames, hBinding]

theorem map_name_bodyDeclaratorBindings (apis : Reactivity) (d : Tree) :
    (d.bodyDeclaratorBindings apis).map BodyDeclaration.name =
      d.declaratorPattern?.elim [] patternNames := by
  unfold bodyDeclaratorBindings
  split
  · rename_i name hName
    rw [patternNames_of_declaratorName? hName]
    rfl
  · rw [List.map_map]
    exact List.map_id _

/-- The analysis of bindings finds in a statement the names that it declares. -/
theorem map_name_bodyBindings (apis : Reactivity) (t : Tree) :
    (t.bodyBindings apis).map BodyDeclaration.name = t.declaredNames := by
  have hNamed : (t.declaredName?.toList.map fun name =>
      (⟨name, .setupConst, false⟩ : BodyDeclaration)).map BodyDeclaration.name =
        t.declaredName?.toList := by
    rw [List.map_map]
    exact List.map_id _
  cases hForm : t.exportableForm with
  | «variable» =>
      simp only [bodyBindings, declaredNames, hForm, List.map_flatMap]
      exact List.flatMap_congr fun d _ => map_name_bodyDeclaratorBindings apis d
  | function => simpa only [bodyBindings, declaredNames, hForm] using hNamed
  | classDefinition => simpa only [bodyBindings, declaredNames, hForm] using hNamed
  | enumeration => simpa only [bodyBindings, declaredNames, hForm] using hNamed
  | _ => simp only [bodyBindings, declaredNames, hForm, List.map_nil]

theorem kind_of_exportableForm (t : Tree) :
    (t.exportableForm = .variable → ∃ kind, t.kind = .variableStatement kind) ∧
      (t.exportableForm = .function ∨ t.exportableForm = .classDefinition ∨
          t.exportableForm = .enumeration →
        t.kind = .function .declaration ∨ t.kind = .classDefinition ∨
          t.kind = .enumDeclaration) := by
  unfold exportableForm
  split <;> simp_all

/-- The nodes by which a statement may declare names: its declarators, or itself. -/
def declarationNodes (t : Tree) : List Tree :=
  match t.exportableForm with
  | .variable => t.declarators
  | _ => [t]

/-- The names that a statement declares by one of its nodes. -/
def namesAt (t d : Tree) : List String :=
  match t.exportableForm with
  | .variable => d.declaratorPattern?.elim [] patternNames
  | .function | .classDefinition | .enumeration => t.declaredName?.toList
  | _ => []

theorem declaredNames_eq_flatMap (t : Tree) :
    t.declaredNames = t.declarationNodes.flatMap t.namesAt := by
  unfold declaredNames declarationNodes namesAt
  cases t.exportableForm <;> simp

/-- A statement declares a name by those of its nodes that have it. -/
theorem declares_iff {t d : Tree} {name : String} :
    t.Declares name d ↔ d ∈ t.declarationNodes ∧ name ∈ t.namesAt d := by
  constructor
  · intro h
    cases h with
    | declarator kind kind' span span' declarators rest pattern hMem h =>
        exact ⟨hMem, mem_patternNames.mpr h⟩
    | named _ hKind hName =>
        rcases hKind with hKind | hKind | hKind <;>
          simp [declarationNodes, namesAt, exportableForm, hKind, hName]
  · rintro ⟨hNode, hName⟩
    have hNamed : (t.exportableForm = .function ∨ t.exportableForm = .classDefinition ∨
        t.exportableForm = .enumeration) → d = t → t.declaredName? = some name →
          t.Declares name d := by
      rintro hForm rfl hName
      exact Declares.named d (d.kind_of_exportableForm.2 hForm) hName
    cases hForm : t.exportableForm with
    | «variable» =>
        obtain ⟨kind, hKind⟩ := t.kind_of_exportableForm.1 hForm
        simp only [declarationNodes, hForm] at hNode
        simp only [namesAt, hForm] at hName
        cases hPattern : d.declaratorPattern? with
        | none => simp [hPattern] at hName
        | some pattern =>
            rw [hPattern] at hName
            cases t with
            | node _ span children =>
                obtain rfl := hKind
                unfold declaratorPattern? at hPattern
                split at hPattern
                · rename_i kind' span' _ rest
                  obtain rfl := Option.some.inj hPattern
                  exact Declares.declarator kind kind' span span' children rest _ hNode
                    (mem_patternNames.mp hName)
                · cases hPattern
    | function =>
        exact hNamed (Or.inl hForm) (by simpa [declarationNodes, hForm] using hNode)
          (by simpa [namesAt, hForm] using hName)
    | classDefinition =>
        exact hNamed (Or.inr (Or.inl hForm)) (by simpa [declarationNodes, hForm] using hNode)
          (by simpa [namesAt, hForm] using hName)
    | enumeration =>
        exact hNamed (Or.inr (Or.inr hForm)) (by simpa [declarationNodes, hForm] using hNode)
          (by simpa [namesAt, hForm] using hName)
    | _ => simp [namesAt, hForm] at hName

theorem mem_declaredNames {t : Tree} {name : String} :
    name ∈ t.declaredNames ↔ ∃ d, Declares name t d := by
  rw [declaredNames_eq_flatMap, List.mem_flatMap]
  exact exists_congr fun d => declares_iff.symm

end Tree

/-- Number of the last statement of a body that declares a name. -/
def lastDeclaring? (body : List Tree) (name : String) : Option Nat :=
  ((body.zipIdx.filter fun (t, _) => name ∈ t.declaredNames).getLast?).map Prod.snd

/-- The number kept for a name declared in a body is that of the last statement that declares it. -/
theorem find?_declarations (program : List Tree) (apis : Reactivity)
    (component : ComponentDeclaration) (f : Tree) (propsAlias : Option String) (name : String) :
    (classifyBindings program apis component f propsAlias).declarations.find? name =
      lastDeclaring? f.bodyStatements name := by
  have hEntries : ((bodyDeclarations apis f).map fun e => (e.1.name, e.2)) =
      f.bodyStatements.zipIdx.flatMap fun e => e.1.declaredNames.map fun n => (n, e.2) := by
    rw [bodyDeclarations, List.map_flatMap]
    apply List.flatMap_congr
    rintro ⟨t, number⟩ -
    show ((t.bodyBindings apis).map fun d => (d, number)).map _ = t.declaredNames.map _
    rw [← t.map_name_bodyBindings apis, List.map_map, List.map_map]
    rfl
  rw [classifyBindings, Table.find?_ofList, hEntries]
  exact lastOf?_flatMap (fun e : Tree × Nat => e.1.declaredNames) Prod.snd _ name

/-- The last statement that declares a name stands behind a number exactly when any of them does. -/
theorem exists_lastDeclaring?_iff {body : List Tree} {name : String} {s : Nat} :
    (∃ last, lastDeclaring? body name = some last ∧ s < last) ↔
      ∃ number t, body[number]? = some t ∧ (∃ d, t.Declares name d) ∧ s < number := by
  have hMem : ∀ {e : Tree × Nat}, e ∈ (body.zipIdx.filter fun (t, _) => name ∈ t.declaredNames) ↔
      body[e.2]? = some e.1 ∧ ∃ d, e.1.Declares name d := by
    intro e
    rw [List.mem_filter, List.mem_zipIdx_iff_getElem?, decide_eq_true_iff, Tree.mem_declaredNames]
  -- The entries keep the order of the body, so the last one has the largest number.
  have hSorted : (body.zipIdx.filter fun (t, _) => name ∈ t.declaredNames).Pairwise
      fun a b => a.2 < b.2 := by
    apply List.Pairwise.filter
    rw [List.pairwise_iff_getElem]
    intro i j hi hj hij
    simpa using hij
  constructor
  · rintro ⟨last, hLast, hs⟩
    obtain ⟨e, he, rfl⟩ := Option.map_eq_some_iff.mp hLast
    obtain ⟨hAt, hDeclares⟩ := hMem.mp (List.mem_of_getLast? he)
    exact ⟨e.2, e.1, hAt, hDeclares, hs⟩
  · rintro ⟨number, t, hAt, hDeclares, hs⟩
    have hEntry : (t, number) ∈ body.zipIdx.filter fun (t, _) => name ∈ t.declaredNames :=
      hMem.mpr ⟨hAt, hDeclares⟩
    rw [lastDeclaring?]
    generalize (body.zipIdx.filter fun (t, _) => name ∈ t.declaredNames) = entries
      at hEntry hSorted
    cases hLast : entries.getLast? with
    | none =>
        rw [List.getLast?_eq_none_iff.mp hLast] at hEntry
        cases hEntry
    | some last =>
        obtain ⟨before, rfl⟩ := List.getLast?_eq_some_iff.mp hLast
        refine ⟨last.2, rfl, ?_⟩
        rcases List.mem_append.mp hEntry with hBefore | hEnd
        · have hLess := (List.pairwise_append.mp hSorted).2.2 _ hBefore last List.mem_cons_self
          exact Nat.lt_trans hs hLess
        · rw [← List.mem_singleton.mp hEnd]
          exact hs

end ComponentAnalysis
