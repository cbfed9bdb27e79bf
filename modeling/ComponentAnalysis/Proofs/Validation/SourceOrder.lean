import ComponentAnalysis.Proofs.Validation.Hoisting

/-! Hoisting errors in terms of places in the source: which references of a hoisted call are
reported is decided by where the declarations of their names start. -/
namespace ComponentAnalysis

namespace Tree

/-- A statement holds the nodes by which it declares names. -/
theorem Declares.mem_preorder {t d : Tree} {name : String} (h : t.Declares name d) :
    d ∈ t.preorder := by
  cases h with
  | declarator kind kind' span span' declarators rest pattern hMem h =>
      exact mem_preorder_of_mem_children hMem
  | named _ hKind hName => exact mem_preorder_self _

/-- Such a node covers some text. -/
theorem Declares.mayBeEmpty {t d : Tree} {name : String} (h : t.Declares name d) :
    d.kind.mayBeEmpty = false := by
  cases h with
  | declarator kind kind' span span' declarators rest pattern hMem h => rfl
  | named _ hKind hName => rcases hKind with hKind | hKind | hKind <;> rw [hKind] <;> rfl

/-- A name is declared by a variable or by the statement itself. -/
theorem Declares.declarator_or_named {t d : Tree} {name : String} (h : t.Declares name d) :
    (d ∈ t.declarators ∧ name ∈ d.declaratorPattern?.elim [] patternNames) ∨
      (d = t ∧ t.declaredName? = some name) := by
  cases h with
  | declarator kind kind' span span' declarators rest pattern hMem h =>
      exact Or.inl ⟨hMem, mem_patternNames.mpr h⟩
  | named _ hKind hName => exact Or.inr ⟨rfl, hName⟩

theorem mem_children_of_mem_callArguments {a t : Tree} (h : a ∈ t.callArguments) :
    a ∈ t.children := by
  unfold callArguments at h
  split at h
  · exact List.mem_cons_of_mem _ (List.mem_filter.mp h).1
  · cases h

end Tree

/-- A reference in a macro call stands at a node of the call. -/
theorem MacroSite.exists_node_of_mem_references {f call : Tree} {name : MacroName} {r : Reference}
    (h : r ∈ (MacroSite.ofCall f call name).references) : ∃ n ∈ call.preorder, r.At n := by
  have hFree : r ∈ Tree.freeReferences call.callArguments := by
    simp only [MacroSite.ofCall] at h
    split at h
    · exact h
    · cases h
  obtain ⟨n, hn, hAt⟩ := Tree.mem_freeReferences hFree
  obtain ⟨a, ha, hn⟩ := List.mem_flatMap.mp hn
  exact ⟨n, Tree.mem_preorder_of_child (Tree.mem_children_of_mem_callArguments ha) hn, hAt⟩

/-- The message of a hoisting error tells the name. -/
theorem Finding.forwardReference_message_inj {name name' : String}
    (h : (Finding.forwardReference name).message = (Finding.forwardReference name').message) :
    name = name' := by
  have hParts : ∀ front middle back : String,
      front ++ name ++ middle ++ back = front ++ name' ++ middle ++ back → name = name' := by
    intro front middle back hEq
    rw [String.append_left_inj, String.append_left_inj, String.append_right_inj] at hEq
    exact hEq
  exact hParts "Cannot reference \"" "\" locally declared variables because it will be "
    "hoisted outside of the setup() function." h

/-- A reported reference is known from its diagnostic. -/
theorem DiagnosticLog.forwardReference_inj {log : DiagnosticLog} {r r' : Reference}
    (h : log.forwardReference r = log.forwardReference r') : r = r' := by
  have hMessage : (Finding.forwardReference r.name).message =
      (Finding.forwardReference r'.name).message := congrArg Diagnostic.message h
  have hName := Finding.forwardReference_message_inj hMessage
  have hStart : r.span.start = r'.span.start := congrArg (fun d => d.location.start) h
  have hStop : r.span.stop = r'.span.stop := congrArg (fun d => d.location.stop) h
  have hSpan : r.span = r'.span := by
    cases hr : r.span
    cases hr' : r'.span
    rw [hr, hr'] at hStart hStop
    exact congr (congrArg Span.mk hStart) hStop
  cases r
  cases r'
  exact congr (congrArg Reference.mk hName) hSpan

/-- A node declares a name at the top of a function's body. -/
def Tree.DeclaresInBody (f : Tree) (name : String) (d : Tree) : Prop :=
  ∃ statement ∈ f.bodyStatements, statement.Declares name d

section

variable {f : Tree} {r : Reference}

/-- A reference is reported if the last declaration of its name is in a later statement than the
call. -/
theorem mem_forwardReferences {site : MacroSite} :
    (site, r) ∈ f.forwardReferences ↔ ∃ s statement, f.bodyStatements[s]? = some statement ∧
      site ∈ f.hoistedSitesIn statement ∧ r ∈ site.references ∧
        ∃ last, lastDeclaring? f.bodyStatements r.name = some last ∧ s < last := by
  simp only [Tree.forwardReferences, List.mem_flatMap, List.mem_map, List.mem_filter, Prod.exists,
    List.mem_zipIdx_iff_getElem?]
  constructor
  · rintro ⟨statement, s, hAt, site', hSite, r', ⟨hr, hLast⟩, hEq⟩
    obtain ⟨rfl, rfl⟩ := Prod.mk.inj hEq
    obtain ⟨last, hLast, hs⟩ := (Option.any_eq_true _ _).mp hLast
    exact ⟨s, statement, hAt, hSite, hr, last, hLast, of_decide_eq_true hs⟩
  · rintro ⟨s, statement, hAt, hSite, hr, last, hLast, hs⟩
    exact ⟨statement, s, hAt, site, hSite, r,
      ⟨hr, (Option.any_eq_true _ _).mpr ⟨last, hLast, decide_eq_true hs⟩⟩, rfl⟩

/-- Of the declarations of a body, those behind a statement belong to later statements. -/
theorem lastDeclaring?_iff_before (hWell : f.WellPlaced) {s : Nat} {statement : Tree}
    (hAt : f.bodyStatements[s]? = some statement) {name : String} :
    (∃ last, lastDeclaring? f.bodyStatements name = some last ∧ s < last) ↔
      ∃ d, f.DeclaresInBody name d ∧ statement.Before d := by
  have hOrder := Tree.bodyStatements_pairwise hWell
  have hEach : ∀ {t : Tree}, t ∈ f.bodyStatements → t.WellPlaced :=
    fun ht => Tree.wellPlaced_of_bodyStatements hWell ht
  have hBefore : ∀ {i j : Nat} {a b : Tree}, f.bodyStatements[i]? = some a →
      f.bodyStatements[j]? = some b → i < j → a.Before b := by
    intro i j a b ha hb hij
    obtain ⟨hi, rfl⟩ := List.getElem?_eq_some_iff.mp ha
    obtain ⟨hj, rfl⟩ := List.getElem?_eq_some_iff.mp hb
    exact List.pairwise_iff_getElem.mp hOrder i j hi hj hij
  rw [exists_lastDeclaring?_iff]
  constructor
  · rintro ⟨number, later, hLater, ⟨d, hDeclares⟩, hs⟩
    have hMem := List.mem_of_getElem? hLater
    have hWithin := (hEach hMem).within hDeclares.mem_preorder
    exact ⟨d, ⟨later, hMem, hDeclares⟩, Nat.le_trans (hBefore hAt hLater hs) hWithin.1⟩
  · rintro ⟨d, ⟨later, hLater, hDeclares⟩, hBehind⟩
    obtain ⟨number, hNumber⟩ := List.mem_iff_getElem?.mp hLater
    refine ⟨number, later, hNumber, ⟨d, hDeclares⟩, ?_⟩
    have hWithin := (hEach hLater).within hDeclares.mem_preorder
    have hCovers := (hEach hLater).covers hDeclares.mem_preorder hDeclares.mayBeEmpty
    have hOrdered := (hEach (List.mem_of_getElem? hAt)).placed.ordered
    have hStart : statement.span.stop ≤ d.span.start := hBehind
    have hStop := hWithin.2
    by_contra hNot
    -- A declaration in this statement or an earlier one would end before it starts.
    rcases Nat.lt_or_eq_of_le (Nat.le_of_not_lt hNot) with hLess | hSame
    · have hEarlier : later.span.stop ≤ statement.span.start := hBefore hNumber hAt hLess
      omega
    · rw [hSame, hAt] at hNumber
      obtain rfl := Option.some.inj hNumber
      omega

end

/-- What validation adds to a log reports a reference. -/
def Reports (program : List Tree) (apis : Reactivity) (log : DiagnosticLog) (r : Reference) :
    Prop :=
  ∃ added, (validate program (componentsOf program) apis log).2.items = log.items ++ added ∧
    log.forwardReference r ∈ added

/-- A property of the references in all hoisted macro calls anywhere in component functions. -/
def ForHoistedReferences (program : List Tree) (P : Tree → Tree → Reference → Prop) : Prop :=
  ∀ c ∈ componentsOf program, ∀ f, c.function = some f → ∀ call ∈ f.preorder, ∀ name,
    call.macroName? = some name → name.base.isHoisted = true →
      ∀ r ∈ (MacroSite.ofCall f call name).references, P f call r

section

variable {program : List Tree} {apis : Reactivity} {log : DiagnosticLog}
  (hOk : (validate program (componentsOf program) apis log).1.structuralOk = true)

include hOk

/-- If the structure is sound, a reference is reported by the check of some component. -/
theorem reports_iff_mem {r : Reference} :
    Reports program apis log r ↔ ∃ c ∈ componentsOf program,
      log.forwardReference r ∈ componentDiagnostics program apis log c := by
  rw [Reports, items_of_structuralOk hOk]
  constructor
  · rintro ⟨added, hItems, hMem⟩
    rw [← List.append_cancel_left hItems] at hMem
    exact List.mem_flatMap.mp hMem
  · intro hMem
    exact ⟨_, rfl, List.mem_flatMap.mpr hMem⟩

/-- The reported references are the forward references of the components. -/
theorem reports_iff (hPlaced : ScriptPlaced program) {r : Reference} :
    Reports program apis log r ↔ ∃ c ∈ componentsOf program, ∃ f, c.function = some f ∧
      ∃ site, (site, r) ∈ f.forwardReferences := by
  rw [reports_iff_mem hOk]
  have hEach : ∀ c ∈ componentsOf program,
      (log.forwardReference r ∈ componentDiagnostics program apis log c ↔
        ∃ f, c.function = some f ∧ ∃ site, (site, r) ∈ f.forwardReferences) := by
    intro c hc
    have hPerm := filter_hoisting_componentDiagnostics apis log hPlaced hc
    have hKind : log.forwardReference r ∈ componentDiagnostics program apis log c ↔
        log.forwardReference r ∈ (componentDiagnostics program apis log c).filter
          fun d => d.kind = .hoisting := by
      rw [List.mem_filter]
      exact ⟨fun hMem => ⟨hMem, rfl⟩, fun h => h.1⟩
    rw [hKind, hPerm.mem_iff, List.mem_map]
    constructor
    · rintro ⟨⟨site, r'⟩, hMem, hEq⟩
      obtain rfl := DiagnosticLog.forwardReference_inj hEq
      cases hFunction : c.function with
      | none => simp [hFunction] at hMem
      | some f =>
          rw [hFunction] at hMem
          exact ⟨f, rfl, site, hMem⟩
    · rintro ⟨f, hFunction, site, hMem⟩
      rw [hFunction]
      exact ⟨(site, r), hMem, rfl⟩
  constructor
  · rintro ⟨c, hc, hMem⟩
    exact ⟨c, hc, (hEach c hc).mp hMem⟩
  · rintro ⟨c, hc, hForward⟩
    exact ⟨c, hc, (hEach c hc).mpr hForward⟩

end

/-- A reference in a call of a function covers a text inside the call. -/
theorem reference_within {f call : Tree} {name : MacroName} {r : Reference} (hWell : f.WellPlaced)
    (hCall : call ∈ f.preorder) (hr : r ∈ (MacroSite.ofCall f call name).references) :
    r.span.start < r.span.stop ∧ r.span.Within call.span := by
  obtain ⟨n, hn, hKind, hSpan⟩ := MacroSite.exists_node_of_mem_references hr
  have hCallWell := hWell.of_mem hCall
  rw [← hSpan]
  exact ⟨hCallWell.covers hn (by rw [hKind]; rfl), hCallWell.within hn⟩

/-- Calls that hold the same reference belong to the same component. -/
theorem component_eq_of_reference {program : List Tree} (hPlaced : ScriptPlaced program)
    {c c' : ComponentDeclaration} (hc : c ∈ componentsOf program) (hc' : c' ∈ componentsOf program)
    {f f' call call' : Tree} {name name' : MacroName} {r : Reference}
    (hFunction : c.function = some f) (hFunction' : c'.function = some f')
    (hCall : call ∈ f.preorder) (hCall' : call' ∈ f'.preorder)
    (hr : r ∈ (MacroSite.ofCall f call name).references)
    (hr' : r ∈ (MacroSite.ofCall f' call' name').references) : c = c' := by
  have hWell := wellPlaced_function hPlaced hc hFunction
  have hWell' := wellPlaced_function hPlaced hc' hFunction'
  obtain ⟨hCovers, hWithin⟩ := reference_within hWell hCall hr
  have hWithin' := (reference_within hWell' hCall' hr').2
  have hInStatement := (hWithin.trans (hWell.within hCall)).trans
    (function_within hPlaced hc hFunction)
  have hInStatement' := (hWithin'.trans (hWell'.within hCall')).trans
    (function_within hPlaced hc' hFunction')
  exact eq_of_within_statements hPlaced hc hc' hCovers hInStatement hInStatement'

/-- A hoisted call is responsible for a forward reference in it: if any call that holds the
reference lies in a statement of the body, then this one does, and in the same statement. -/
theorem mem_statement_of_reference {f call call' : Tree} {name name' : MacroName} {r : Reference}
    (hWell : f.WellPlaced) (hFunction : f.isFunction = true) (hCall : call ∈ f.preorder)
    (hName : call.macroName? = some name) (hr : r ∈ (MacroSite.ofCall f call name).references)
    {statement : Tree} (hStatement : statement ∈ f.bodyStatements)
    (hCall' : call' ∈ statement.preorder)
    (hr' : r ∈ (MacroSite.ofCall f call' name').references) : call ∈ statement.preorder := by
  have hEach : ∀ {t : Tree}, t ∈ f.bodyStatements → t.WellPlaced :=
    fun ht => Tree.wellPlaced_of_bodyStatements hWell ht
  obtain ⟨hCovers, hWithin⟩ := reference_within hWell hCall hr
  have hMem' := Tree.mem_preorder_of_bodyStatements hStatement hCall'
  have hWithin' : r.span.Within statement.span :=
    (reference_within hWell hMem' hr').2.trans ((hEach hStatement).within hCall')
  rcases Tree.mem_statement_or_apart hWell hFunction hCall (Tree.kind_of_macroName? hName) with
    ⟨other, hOther, hIn⟩ | hAway
  · have hWithinOther := hWithin.trans ((hEach hOther).within hIn)
    have hSame := Tree.eq_of_within (Tree.bodyStatements_pairwise hWell) hOther hStatement hCovers
      hWithinOther hWithin'
    rw [← hSame]
    exact hIn
  · exact absurd hWithin' ((hAway statement hStatement).not_within hCovers hWithin)

/-- Hoisting errors in source order, by statement: a reference of a hoisted call is reported exactly
if the call lies in a statement of the body and some declaration of the name at the top of the body
starts behind that statement. -/
def ReportedByStatement (program : List Tree) (apis : Reactivity) (log : DiagnosticLog) : Prop :=
  ForHoistedReferences program fun f call r =>
    Reports program apis log r ↔ ∃ statement ∈ f.bodyStatements, call ∈ statement.preorder ∧
      ∃ d, f.DeclaresInBody r.name d ∧ statement.Before d

/-- Validation reports by statements, in every file with a sound structure. -/
theorem validate_reportedByStatement {program : List Tree} {apis : Reactivity}
    {log : DiagnosticLog} (hPlaced : ScriptPlaced program)
    (hOk : (validate program (componentsOf program) apis log).1.structuralOk = true) :
    ReportedByStatement program apis log := by
  intro c hc f hFunction call hCall name hName hHoisted r hr
  have hWell := wellPlaced_function hPlaced hc hFunction
  have hIsFunction := isFunction_of_mem_componentsOf hc hFunction
  rw [reports_iff hOk hPlaced]
  constructor
  · rintro ⟨c', hc', f', hFunction', site, hForward⟩
    obtain ⟨s, statement, hAt, hSite, hr', hLast⟩ := mem_forwardReferences.mp hForward
    obtain ⟨call', hCall', name', -, -, rfl⟩ := mem_hoistedSitesIn.mp hSite
    have hMem' := Tree.mem_preorder_of_bodyStatements (List.mem_of_getElem? hAt) hCall'
    -- The report may come from another call, but not from another component.
    obtain rfl := component_eq_of_reference hPlaced hc hc' hFunction hFunction' hCall hMem' hr hr'
    rw [hFunction] at hFunction'
    obtain rfl := Option.some.inj hFunction'
    exact ⟨statement, List.mem_of_getElem? hAt,
      mem_statement_of_reference hWell hIsFunction hCall hName hr (List.mem_of_getElem? hAt) hCall'
        hr', (lastDeclaring?_iff_before hWell hAt).mp hLast⟩
  · rintro ⟨statement, hStatement, hIn, hBehind⟩
    obtain ⟨s, hAt⟩ := List.mem_iff_getElem?.mp hStatement
    refine ⟨c, hc, f, hFunction, MacroSite.ofCall f call name, mem_forwardReferences.mpr ?_⟩
    exact ⟨s, statement, hAt, mem_hoistedSitesIn.mpr ⟨call, hIn, name, hName, hHoisted, rfl⟩, hr,
      (lastDeclaring?_iff_before hWell hAt).mpr hBehind⟩

theorem validate_reportedByStatement_lateProp :
    ScriptPlaced [latePropStatement] ∧
      (validate [latePropStatement] (componentsOf [latePropStatement]) {}
        latePropLog).1.structuralOk = true ∧
      ReportedByStatement [latePropStatement] {} latePropLog :=
  ⟨by decide, structuralOk_iff.mpr (by decide +kernel),
    validate_reportedByStatement (by decide) (structuralOk_iff.mpr (by decide +kernel))⟩

/-- Hoisting errors in source order, by declaration: a reference of a hoisted call is reported
exactly if its name is declared at the top of the body and every such declaration starts behind the
call. -/
def ReportedBySourceOrder (program : List Tree) (apis : Reactivity) (log : DiagnosticLog) : Prop :=
  ForHoistedReferences program fun f call r =>
    Reports program apis log r ↔ (∃ d, f.DeclaresInBody r.name d) ∧
      ∀ d, f.DeclaresInBody r.name d → call.Before d

/-- The default value of a parameter, a call that refers to a name declared in the body. -/
def defaultOptionsCall : Tree :=
  .node .call ⟨34, 62⟩
    [.node (.reference "vineOptions") ⟨34, 45⟩ [],
      .node .object ⟨46, 61⟩
        [.node .property ⟨48, 59⟩
          [.node (.name "name") ⟨48, 52⟩ [], .node (.reference "later") ⟨54, 59⟩ []]]]

def defaultOptionsStatement : Tree :=
  .node (.function .declaration) ⟨0, 105⟩
    [.node (.binding "A") ⟨9, 10⟩ [],
      .node .parameters ⟨10, 63⟩
        [.node .parameter ⟨11, 62⟩
          [.node (.binding "props") ⟨11, 16⟩ [],
            .node .typeAscription ⟨16, 31⟩
              [.node .typeLiteral ⟨18, 31⟩
                [.node (.propertySignature false) ⟨20, 29⟩
                  [.node (.name "a") ⟨20, 21⟩ [],
                    .node .typeAscription ⟨21, 29⟩ [.node .otherType ⟨23, 29⟩ []]]]],
            defaultOptionsCall]],
      .node .functionBody ⟨64, 105⟩
        [.node (.variableStatement .const) ⟨68, 83⟩
          [.node (.declarator .const) ⟨74, 83⟩
            [.node (.binding "later") ⟨74, 79⟩ [], .node (.number "1") ⟨82, 83⟩ []]],
          .node .returnStatement ⟨86, 103⟩
            [.node .taggedTemplate ⟨93, 103⟩
              [.node (.reference "vine") ⟨93, 97⟩ [],
                .node .template ⟨97, 103⟩ [.node (.templateText (some "<a/>")) ⟨98, 102⟩ []]]]]]

/-- A call that refers to a name declared by the next declarator of its statement. -/
def siblingPropCall : Tree :=
  .node .call ⟨27, 56⟩
    [.node (.reference "vineProp") ⟨27, 35⟩ [],
      .node .typeArguments ⟨35, 43⟩ [.node .otherType ⟨36, 42⟩ []],
      .node .arrow ⟨44, 55⟩
        [.node .parameters ⟨44, 46⟩ [],
          .node .functionBody ⟨50, 55⟩
            [.node .expressionStatement ⟨50, 55⟩ [.node (.reference "later") ⟨50, 55⟩ []]]]]

def siblingPropStatement : Tree :=
  .node (.function .declaration) ⟨0, 89⟩
    [.node (.binding "A") ⟨9, 10⟩ [],
      .node .parameters ⟨10, 12⟩ [],
      .node .functionBody ⟨13, 89⟩
        [.node (.variableStatement .const) ⟨17, 67⟩
          [.node (.declarator .const) ⟨23, 56⟩
            [.node (.binding "p") ⟨23, 24⟩ [], siblingPropCall],
            .node (.declarator .const) ⟨58, 67⟩
              [.node (.binding "later") ⟨58, 63⟩ [], .node (.number "1") ⟨66, 67⟩ []]],
          .node .returnStatement ⟨70, 87⟩
            [.node .taggedTemplate ⟨77, 87⟩
              [.node (.reference "vine") ⟨77, 81⟩ [],
                .node .template ⟨81, 87⟩ [.node (.templateText (some "<a/>")) ⟨82, 86⟩ []]]]]]

/-- A call that refers to a name declared before it and once more behind it. -/
def redeclaredPropCall : Tree :=
  .node .call ⟨39, 64⟩
    [.node (.reference "vineProp") ⟨39, 47⟩ [],
      .node .typeArguments ⟨47, 55⟩ [.node .otherType ⟨48, 54⟩ []],
      .node .arrow ⟨56, 63⟩
        [.node .parameters ⟨56, 58⟩ [],
          .node .functionBody ⟨62, 63⟩
            [.node .expressionStatement ⟨62, 63⟩ [.node (.reference "x") ⟨62, 63⟩ []]]]]

def redeclaredPropStatement : Tree :=
  .node (.function .declaration) ⟨0, 98⟩
    [.node (.binding "A") ⟨9, 10⟩ [],
      .node .parameters ⟨10, 12⟩ [],
      .node .functionBody ⟨13, 98⟩
        [.node (.variableStatement .var) ⟨17, 26⟩
          [.node (.declarator .var) ⟨21, 26⟩
            [.node (.binding "x") ⟨21, 22⟩ [], .node (.number "1") ⟨25, 26⟩ []]],
          .node (.variableStatement .const) ⟨29, 64⟩
            [.node (.declarator .const) ⟨35, 64⟩
              [.node (.binding "p") ⟨35, 36⟩ [], redeclaredPropCall]],
          .node (.variableStatement .var) ⟨67, 76⟩
            [.node (.declarator .var) ⟨71, 76⟩
              [.node (.binding "x") ⟨71, 72⟩ [], .node (.number "2") ⟨75, 76⟩ []]],
          .node .returnStatement ⟨79, 96⟩
            [.node .taggedTemplate ⟨86, 96⟩
              [.node (.reference "vine") ⟨86, 90⟩ [],
                .node .template ⟨90, 96⟩ [.node (.templateText (some "<a/>")) ⟨91, 95⟩ []]]]]]

/-- A single statement that is a component is the only one. -/
theorem mem_componentsOf_singleton {t : Tree} (h : t.isComponent = true) :
    ComponentDeclaration.ofStatement 0 t ∈ componentsOf [t] :=
  mem_componentsOf.mpr ⟨0, t, rfl, h, rfl⟩

/-- Without faults no reference is reported. -/
theorem not_reports_of_no_faults {program : List Tree} {apis : Reactivity} {log : DiagnosticLog}
    (hRoot : rootFaults program (componentsOf program) = [])
    (hNone : ∀ c ∈ componentsOf program, componentFaults program apis log.source c = [])
    (r : Reference) : ¬ Reports program apis log r := by
  intro hReports
  obtain ⟨c, hc, hMem⟩ := (reports_iff_mem (structuralOk_iff.mpr hRoot)).mp hReports
  obtain ⟨fault, hFault, -⟩ := mem_componentDiagnostics.mp hMem
  rw [hNone c hc] at hFault
  cases hFault

def sourceOrderLog : DiagnosticLog where
  fileId := "order"
  source := ""

/-- A name declared behind a call that stands outside of the body is not reported. -/
theorem not_sourceOrder_defaultOptions :
    ¬ ReportedBySourceOrder [defaultOptionsStatement] {} sourceOrderLog := by
  intro h
  have hIff := h _ (mem_componentsOf_singleton (by decide)) defaultOptionsStatement rfl
    defaultOptionsCall (List.mem_of_getElem? (show _[11]? = some defaultOptionsCall from rfl))
    ⟨.options, none⟩ (by decide) rfl ⟨"later", ⟨54, 59⟩⟩ (by decide +kernel)
  have hWell : defaultOptionsStatement.WellPlaced := by decide
  have hBefore : ∀ statement ∈ defaultOptionsStatement.bodyStatements,
      defaultOptionsCall.Before statement := by decide
  apply not_reports_of_no_faults (by decide) (by decide +kernel) _ (hIff.mpr ⟨?_, ?_⟩)
  · exact ⟨_, _, List.mem_cons_self, Tree.Declares.declarator .const .const _ _ _ _ _
      List.mem_cons_self (Tree.Binds.plain _ _)⟩
  · rintro d ⟨statement, hStatement, hDeclares⟩
    have hMem := Tree.mem_preorder_of_bodyStatements hStatement statement.mem_preorder_self
    have hWithin := (hWell.of_mem hMem).within hDeclares.mem_preorder
    exact Nat.le_trans (hBefore statement hStatement) hWithin.1

/-- A name declared by a later declarator of the same statement is not reported. -/
theorem not_sourceOrder_siblingProp :
    ¬ ReportedBySourceOrder [siblingPropStatement] {} sourceOrderLog := by
  intro h
  have hIff := h _ (mem_componentsOf_singleton (by decide)) siblingPropStatement rfl
    siblingPropCall (List.mem_of_getElem? (show _[7]? = some siblingPropCall from rfl))
    ⟨.prop, none⟩ (by decide) rfl ⟨"later", ⟨50, 55⟩⟩ (by decide +kernel)
  apply not_reports_of_no_faults (by decide) (by decide +kernel) _ (hIff.mpr ⟨?_, ?_⟩)
  · exact ⟨_, _, List.mem_cons_self, Tree.Declares.declarator .const .const _ _ _ _ _
      (List.mem_cons_of_mem _ List.mem_cons_self) (Tree.Binds.plain _ _)⟩
  · rintro d ⟨statement, hStatement, hDeclares⟩
    have hEach : ∀ statement ∈ siblingPropStatement.bodyStatements,
        statement.declaredName? ≠ some "later" ∧ ∀ d ∈ statement.declarators,
          "later" ∈ d.declaratorPattern?.elim [] Tree.patternNames → siblingPropCall.Before d := by
      decide
    rcases hDeclares.declarator_or_named with ⟨hMem, hName⟩ | ⟨-, hName⟩
    · exact (hEach statement hStatement).2 d hMem hName
    · exact absurd hName (hEach statement hStatement).1

/-- A name declared before a call is reported when it is declared again behind the call. -/
theorem not_sourceOrder_redeclaredProp :
    ¬ ReportedBySourceOrder [redeclaredPropStatement] {} sourceOrderLog := by
  intro h
  have hIff := h _ (mem_componentsOf_singleton (by decide)) redeclaredPropStatement rfl
    redeclaredPropCall (List.mem_of_getElem? (show _[11]? = some redeclaredPropCall from rfl))
    ⟨.prop, none⟩ (by decide) rfl ⟨"x", ⟨62, 63⟩⟩ (by decide +kernel)
  have hReports : Reports [redeclaredPropStatement] {} sourceOrderLog ⟨"x", ⟨62, 63⟩⟩ := by
    apply (reports_iff_mem (structuralOk_iff.mpr (by decide))).mpr
    refine ⟨_, mem_componentsOf_singleton (by decide), mem_componentDiagnostics.mpr ?_⟩
    exact ⟨(.forwardReference "x", ⟨62, 63⟩), by decide +kernel, rfl⟩
  have hBehind := (hIff.mp hReports).2 _ ⟨_, List.mem_cons_self,
    Tree.Declares.declarator .var .var _ _ _ _ _ List.mem_cons_self (Tree.Binds.plain _ _)⟩
  exact absurd hBehind (by decide)

/-- Three files in which the two orders differ: a call in a parameter, a later variable of the same
statement, and a name that is declared again. -/
theorem not_reportedBySourceOrder :
    (ScriptPlaced [defaultOptionsStatement] ∧
      (validate [defaultOptionsStatement] (componentsOf [defaultOptionsStatement]) {}
        sourceOrderLog).1.structuralOk = true ∧
      ¬ ReportedBySourceOrder [defaultOptionsStatement] {} sourceOrderLog) ∧
    (ScriptPlaced [siblingPropStatement] ∧
      (validate [siblingPropStatement] (componentsOf [siblingPropStatement]) {}
        sourceOrderLog).1.structuralOk = true ∧
      ¬ ReportedBySourceOrder [siblingPropStatement] {} sourceOrderLog) ∧
    ScriptPlaced [redeclaredPropStatement] ∧
      (validate [redeclaredPropStatement] (componentsOf [redeclaredPropStatement]) {}
        sourceOrderLog).1.structuralOk = true ∧
      ¬ ReportedBySourceOrder [redeclaredPropStatement] {} sourceOrderLog :=
  ⟨⟨by decide, structuralOk_iff.mpr (by decide), not_sourceOrder_defaultOptions⟩,
    ⟨by decide, structuralOk_iff.mpr (by decide), not_sourceOrder_siblingProp⟩,
    by decide, structuralOk_iff.mpr (by decide), not_sourceOrder_redeclaredProp⟩

end ComponentAnalysis
