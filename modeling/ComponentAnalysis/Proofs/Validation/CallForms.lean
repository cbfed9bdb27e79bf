import ComponentAnalysis.Proofs.Component.Completeness
import ComponentAnalysis.Proofs.Component.PropVariables
import ComponentAnalysis.Proofs.Macro.Resolution
import ComponentAnalysis.Proofs.Tree.Returned

/-! The forms of macro calls, read off their trees. The checks of a call accept all well-formed ones
and two forms more: events with several type arguments, of which they read the first, and a spread
where `vineExpose` has its one argument. -/
namespace ComponentAnalysis

/-- Languages are read by their exact names. -/
theorem StyleLanguage.ofTag?_eq_some_iff {tag : String} {language : StyleLanguage} :
    StyleLanguage.ofTag? tag = some language ↔ tag = language.toString := by
  constructor
  · intro h
    have hFound := List.find?_some (show StyleLanguage.all.find? _ = some language from h)
    exact (of_decide_eq_true hFound).symm
  · rintro rfl
    exact ofTag?_toString language

namespace Tree

/-- A variable of a plain name in a function is initialized by a call. -/
def BindsCall (f call : Tree) : Prop :=
  ∃ d ∈ f.preorder, ∃ name, d.declaratorName? = some name ∧ d.IsInitializedBy call

/-- The calls of a family of macros in a function, with those of its variants. -/
def familyCalls (f : Tree) (base : MacroBase) : List Tree :=
  f.preorder.filter fun n => n.macroName?.any fun name => name.base = base

/-- A literal that a style may be given as: a string, or a template without interpolations, which
may have a language as its tag. -/
inductive IsStyle : Tree → Prop where
  | string {value : String} {span : Span} {children : List Tree} :
      IsStyle (node (.string value) span children)
  | template {t : Tree} (hKind : t.kind = .template) (hPlain : t.isInterpolated = false) :
      IsStyle t
  | tagged {t tag text : Tree} (language : StyleLanguage) (hTagged : t.tagged? = some (tag, text))
      (hTag : tag.referenceName? = some language.toString) (hPlain : text.isInterpolated = false) :
      IsStyle t

/-- The forms in which a function may call macros. -/
inductive WellFormedCall (f call : Tree) : MacroName → Prop where
  | prop {variant : Option MacroVariant} (hVariant : variant ≠ some .withDefault)
      (hBound : f.BindsCall call) (hTypes : call.callTypes ≠ [])
      (hArguments : call.callArguments.length ≤ 1) : WellFormedCall f call ⟨.prop, variant⟩
  | withDefault (hBound : f.BindsCall call) (hDefault : call.callArguments ≠ [])
      (hArguments : call.callArguments.length ≤ 2) :
      WellFormedCall f call ⟨.prop, some .withDefault⟩
  | emits {variant : Option MacroVariant} {type : Tree} (hArguments : call.callArguments = [])
      (hTypes : call.callTypes = [type]) (hLiteral : type.kind = .typeLiteral) :
      WellFormedCall f call ⟨.emits, variant⟩
  | expose {variant : Option MacroVariant} {argument : Tree}
      (hArguments : call.callArguments = [argument]) (hExpression : argument.kind ≠ .spread) :
      WellFormedCall f call ⟨.expose, variant⟩
  | options {variant : Option MacroVariant} {argument : Tree}
      (hArguments : call.callArguments = [argument]) (hExpression : argument.kind ≠ .spread)
      (hObject : argument.unwrap.kind = .object) : WellFormedCall f call ⟨.options, variant⟩
  | style {variant : Option MacroVariant} {argument : Tree}
      (hArguments : call.callArguments = [argument]) (hExpression : argument.kind ≠ .spread)
      (hStyle : argument.unwrap.IsStyle) : WellFormedCall f call ⟨.style, variant⟩

/-- The other forms in which the checks accept a call. -/
inductive SlipsThrough (call : Tree) : MacroName → Prop where
  | types {variant : Option MacroVariant} {type other : Tree} {rest : List Tree}
      (hArguments : call.callArguments = []) (hTypes : call.callTypes = type :: other :: rest)
      (hLiteral : type.kind = .typeLiteral) : SlipsThrough call ⟨.emits, variant⟩
  | spread {variant : Option MacroVariant} {argument : Tree}
      (hArguments : call.callArguments = [argument]) (hSpread : argument.kind = .spread) :
      SlipsThrough call ⟨.expose, variant⟩

/-- No well-formed call is of the other forms. -/
theorem WellFormedCall.not_slipsThrough {f call : Tree} {name : MacroName}
    (h : f.WellFormedCall call name) : ¬ call.SlipsThrough name := by
  intro hSlips
  cases h with
  | emits _ hTypes _ =>
      obtain ⟨-, hTypes', -⟩ := hSlips
      rw [hTypes] at hTypes'
      cases hTypes'
  | expose hArguments hExpression =>
      obtain - | ⟨hArguments', hSpread⟩ := hSlips
      rw [hArguments] at hArguments'
      cases hArguments'
      exact hExpression hSpread
  | _ => cases hSlips

/-! What the checks read of an argument. -/

/-- An object may stand in wrappers, but not in a spread. -/
theorem ofArgument_eq_object_iff {t : Tree} :
    ArgumentShape.ofArgument t = .object ↔ t.kind ≠ .spread ∧ t.unwrap.kind = .object := by
  by_cases hSpread : t.kind = .spread
  · simp [ArgumentShape.ofArgument, hSpread]
  · rw [ArgumentShape.ofArgument, if_neg hSpread, and_iff_right hSpread]
    dsimp only
    split
    case h_5 =>
      split
      · split <;> simp_all
      · simp_all
    all_goals simp_all

/-- A template is a style if it has no interpolations. -/
theorem styleFaults_template_eq_nil_iff {name : MacroName} {content : Span}
    {isInterpolated : Bool} :
    styleFaults name (.template content isInterpolated) = [] ↔ isInterpolated = false := by
  cases isInterpolated <;> simp [styleFaults]

/-- With a tag it has to name a language as well. -/
theorem styleFaults_tagged_eq_nil_iff {name : MacroName} {tag : String} {content : Span}
    {isInterpolated : Bool} :
    styleFaults name (.tagged tag content isInterpolated) = [] ↔
      (∃ language : StyleLanguage, tag = language.toString) ∧ isInterpolated = false := by
  simp only [← StyleLanguage.ofTag?_eq_some_iff]
  cases hTag : StyleLanguage.ofTag? tag <;> cases isInterpolated <;> simp [styleFaults, hTag]

theorem isStyle_iff {t : Tree} (hKind : t.kind = .taggedTemplate) :
    t.IsStyle ↔ ∃ tag text, t.tagged? = some (tag, text) ∧ ∃ language : StyleLanguage,
      tag.referenceName? = some language.toString ∧ text.isInterpolated = false := by
  constructor
  · intro h
    cases h with
    | string => cases hKind
    | template hTemplate _ =>
        rw [hTemplate] at hKind
        cases hKind
    | tagged language hTagged hTag hPlain => exact ⟨_, _, hTagged, language, hTag, hPlain⟩
  · rintro ⟨tag, text, hTagged, language, hTag, hPlain⟩
    exact .tagged language hTagged hTag hPlain

/-- An argument is accepted as a style if it is one apart from wrappers. -/
theorem styleFaults_ofArgument_eq_nil_iff {t : Tree} (name : MacroName) :
    styleFaults name (ArgumentShape.ofArgument t) = [] ↔
      t.kind ≠ .spread ∧ t.unwrap.IsStyle := by
  by_cases hSpread : t.kind = .spread
  · simp [ArgumentShape.ofArgument, hSpread, styleFaults]
  rw [ArgumentShape.ofArgument, if_neg hSpread, and_iff_right hSpread]
  generalize t.unwrap = value
  obtain ⟨kind, span, children⟩ := value
  cases kind with
  | string text => exact iff_of_true rfl .string
  | template =>
      simp only [kind, styleFaults_template_eq_nil_iff]
      refine ⟨.template rfl, ?_⟩
      rintro (_ | ⟨-, hPlain⟩ | ⟨language, hTagged, -, -⟩)
      · exact hPlain
      · cases kind_of_tagged? hTagged
  | taggedTemplate =>
      rw [isStyle_iff rfl]
      simp only [kind]
      cases hTagged : (node .taggedTemplate span children).tagged? with
      | none => simp [styleFaults]
      | some parts =>
          obtain ⟨tag, text⟩ := parts
          cases hTag : tag.referenceName? with
          | none => simp [styleFaults, hTag]
          | some tagName => simp [styleFaults_tagged_eq_nil_iff, hTag]
  | _ =>
      refine iff_of_false (List.cons_ne_nil _ _) ?_
      rintro (_ | ⟨hKind, -⟩ | ⟨language, hTagged, -, -⟩)
      · cases hKind
      · cases kind_of_tagged? hTagged

/-! The checks of a call, by the family of its macro. -/

section

variable {f call : Tree} {variant : Option MacroVariant}

/-- A call is bound if a variable of a plain name takes its value. -/
theorem bindingOfCall?_ne_none_iff (hApart : f.CallsApart) (hCall : call ∈ f.calls) :
    f.bindingOfCall? call.span ≠ none ↔ f.BindsCall call := by
  rw [Option.ne_none_iff_exists']
  simp only [bindingOfCall?_eq_some_iff hApart hCall]
  exact ⟨fun ⟨name, d, hd, hName, hInit⟩ => ⟨d, hd, name, hName, hInit⟩,
    fun ⟨d, hd, name, hName, hInit⟩ => ⟨name, d, hd, hName, hInit⟩⟩

/-- For props the checks accept just the well-formed calls. -/
theorem siteFaults_ofCall_prop_iff (hApart : f.CallsApart) (hCall : call ∈ f.calls) :
    siteFaults (MacroSite.ofCall f call ⟨.prop, variant⟩) = [] ↔
      f.WellFormedCall call ⟨.prop, variant⟩ := by
  rw [siteFaults_prop_iff rfl]
  simp only [MacroSite.ofCall, bindingOfCall?_ne_none_iff hApart hCall, ne_eq, List.map_eq_nil_iff,
    List.length_map, List.length_eq_zero_iff]
  split
  · rename_i hVariant
    constructor
    · rintro ⟨hBound, hDefault, hArguments⟩
      rw [hVariant]
      exact .withDefault hBound hDefault hArguments
    · intro h
      cases h with
      | prop hOther => exact absurd hVariant hOther
      | withDefault hBound hDefault hArguments => exact ⟨hBound, hDefault, hArguments⟩
  · rename_i hVariant
    constructor
    · rintro ⟨hBound, hTypes, hArguments⟩
      exact .prop hVariant hBound hTypes hArguments
    · intro h
      cases h with
      | prop _ hBound hTypes hArguments => exact ⟨hBound, hTypes, hArguments⟩
      | withDefault => exact absurd rfl hVariant

/-- For events they accept further types beside the first. -/
theorem siteFaults_ofCall_emits_iff :
    siteFaults (MacroSite.ofCall f call ⟨.emits, variant⟩) = [] ↔
      f.WellFormedCall call ⟨.emits, variant⟩ ∨ call.SlipsThrough ⟨.emits, variant⟩ := by
  have hFaults : siteFaults (MacroSite.ofCall f call ⟨.emits, variant⟩) = [] ↔
      call.callArguments = [] ∧
        ∃ type rest, call.callTypes = type :: rest ∧ type.kind = .typeLiteral := by
    rw [siteFaults_emits_iff rfl]
    simp only [MacroSite.ofCall, List.map_eq_nil_iff]
    cases call.callTypes with
    | nil => simp
    | cons type rest => simp [MacroTypeArgument.ofType]
  rw [hFaults]
  constructor
  · rintro ⟨hArguments, type, _ | ⟨other, rest⟩, hTypes, hLiteral⟩
    · exact Or.inl (.emits hArguments hTypes hLiteral)
    · exact Or.inr (.types hArguments hTypes hLiteral)
  · rintro (h | h)
    · cases h with
      | emits hArguments hTypes hLiteral => exact ⟨hArguments, _, [], hTypes, hLiteral⟩
    · cases h with
      | types hArguments hTypes hLiteral => exact ⟨hArguments, _, _, hTypes, hLiteral⟩

/-- What the checks of one argument ask of the tree of a call. -/
theorem siteFaults_ofCall_single_iff {base : MacroBase}
    (hBase : base = .expose ∨ base = .options ∨ base = .style) :
    siteFaults (MacroSite.ofCall f call ⟨base, variant⟩) = [] ↔
      ∃ argument, call.callArguments = [argument] ∧
        (base = .options → argument.kind ≠ .spread ∧ argument.unwrap.kind = .object) ∧
        (base = .style → argument.kind ≠ .spread ∧ argument.unwrap.IsStyle) := by
  refine (siteFaults_single_iff hBase).trans ⟨?_, ?_⟩
  · rintro ⟨_, hArguments, hObject, hStyle⟩
    obtain ⟨argument, hArgument, rfl⟩ := List.map_eq_singleton_iff.mp hArguments
    exact ⟨argument, hArgument, fun h => ofArgument_eq_object_iff.mp (hObject h),
      fun h => (styleFaults_ofArgument_eq_nil_iff _).mp (hStyle h)⟩
  · rintro ⟨argument, hArgument, hObject, hStyle⟩
    exact ⟨_, List.map_eq_singleton_iff.mpr ⟨argument, hArgument, rfl⟩,
      fun h => ofArgument_eq_object_iff.mpr (hObject h),
      fun h => (styleFaults_ofArgument_eq_nil_iff _).mpr (hStyle h)⟩

/-- For `vineExpose` they accept a spread as well. -/
theorem siteFaults_ofCall_expose_iff :
    siteFaults (MacroSite.ofCall f call ⟨.expose, variant⟩) = [] ↔
      f.WellFormedCall call ⟨.expose, variant⟩ ∨ call.SlipsThrough ⟨.expose, variant⟩ := by
  rw [siteFaults_ofCall_single_iff (Or.inl rfl)]
  constructor
  · rintro ⟨argument, hArguments, -, -⟩
    by_cases hSpread : argument.kind = .spread
    · exact Or.inr (.spread hArguments hSpread)
    · exact Or.inl (.expose hArguments hSpread)
  · rintro (h | h)
    · cases h with
      | expose hArguments _ => exact ⟨_, hArguments, MacroBase.noConfusion, MacroBase.noConfusion⟩
    · cases h with
      | spread hArguments _ => exact ⟨_, hArguments, MacroBase.noConfusion, MacroBase.noConfusion⟩

/-- For options they accept just the well-formed calls. -/
theorem siteFaults_ofCall_options_iff :
    siteFaults (MacroSite.ofCall f call ⟨.options, variant⟩) = [] ↔
      f.WellFormedCall call ⟨.options, variant⟩ := by
  rw [siteFaults_ofCall_single_iff (Or.inr (Or.inl rfl))]
  constructor
  · rintro ⟨argument, hArguments, hObject, -⟩
    exact .options hArguments (hObject rfl).1 (hObject rfl).2
  · intro h
    cases h with
    | options hArguments hExpression hObject =>
        exact ⟨_, hArguments, fun _ => ⟨hExpression, hObject⟩, MacroBase.noConfusion⟩

/-- So they do for styles. -/
theorem siteFaults_ofCall_style_iff :
    siteFaults (MacroSite.ofCall f call ⟨.style, variant⟩) = [] ↔
      f.WellFormedCall call ⟨.style, variant⟩ := by
  rw [siteFaults_ofCall_single_iff (Or.inr (Or.inr rfl))]
  constructor
  · rintro ⟨argument, hArguments, -, hStyle⟩
    exact .style hArguments (hStyle rfl).1 (hStyle rfl).2
  · intro h
    cases h with
    | style hArguments hExpression hStyle =>
        exact ⟨_, hArguments, MacroBase.noConfusion, fun _ => ⟨hExpression, hStyle⟩⟩

/-- The checks of a call accept the well-formed ones, and two forms more. -/
theorem siteFaults_ofCall_iff (hApart : f.CallsApart) (hCall : call ∈ f.calls) {name : MacroName} :
    siteFaults (MacroSite.ofCall f call name) = [] ↔
      f.WellFormedCall call name ∨ call.SlipsThrough name := by
  obtain ⟨base, variant⟩ := name
  cases base with
  | prop =>
      rw [or_iff_left fun hSlips => by cases hSlips]
      exact siteFaults_ofCall_prop_iff hApart hCall
  | emits => exact siteFaults_ofCall_emits_iff
  | expose => exact siteFaults_ofCall_expose_iff
  | options =>
      rw [or_iff_left fun hSlips => by cases hSlips]
      exact siteFaults_ofCall_options_iff
  | style =>
      rw [or_iff_left fun hSlips => by cases hSlips]
      exact siteFaults_ofCall_style_iff

end

/-- The sites of a family are those of its calls. -/
theorem length_sitesOf (f : Tree) (base : MacroBase) :
    (sitesOf base f.macroSites).length = (f.familyCalls base).length := by
  rw [sitesOf, macroSites, List.filter_filterMap, List.length_filterMap_eq_countP, familyCalls,
    ← List.countP_eq_length_filter]
  apply List.countP_congr
  intro n _
  cases n.macroName? with
  | none => simp
  | some name => simp [MacroSite.ofCall, Option.filter]

end Tree

/-- In a file that passes validation each component calls the families that are not of props at most
once, and its calls are well-formed, apart from two forms: events with several type arguments, and a
spread where `vineExpose` has its argument. -/
theorem wellFormedCall_iff_of_passed {program : List Tree} (hParsed : ScriptParsed program)
    (apis : Reactivity) (log : DiagnosticLog)
    (hPassed : (validate program (componentsOf program) apis log).1.passed = true) :
    ∀ c ∈ componentsOf program, ∃ f, c.function = some f ∧
      (∀ base : MacroBase, base.isSingleton = true → (f.familyCalls base).length ≤ 1) ∧
      ∀ call ∈ f.preorder, ∀ name, call.CallsMacro name →
        (f.WellFormedCall call name ↔ ¬ call.SlipsThrough name) := by
  obtain ⟨-, hNoError⟩ := passed_iff.mp hPassed
  intro c hc
  obtain ⟨f, hFunction⟩ := exists_function_of_no_error (hNoError c hc)
  have hApart := (hParsed.parsed_function hc hFunction).callsApart
  have hSites := sites_of_mem_componentsOf hc hFunction
  refine ⟨f, hFunction, fun base hSingleton => ?_, fun call hMem name hCalls => ?_⟩
  · have hOnce := duplicatedSingletons_eq_nil_of_no_error (hNoError c hc)
    rw [← Tree.length_sitesOf, ← hSites]
    rcases sitesOf_eq_of_duplicatedSingletons_nil hOnce hSingleton with hNone | ⟨site, hOne⟩
    · rw [hNone]
      exact Nat.zero_le _
    · rw [hOne]
      exact Nat.le_refl _
  · have hName := Tree.macroName?_eq_some_iff.mpr hCalls
    have hSound : siteFaults (MacroSite.ofCall f call name) = [] :=
      siteFaults_eq_nil_of_no_error (hNoError c hc) (hSites ▸ Tree.mem_macroSites hMem hName)
    have hForms := (Tree.siteFaults_ofCall_iff hApart
      (Tree.mem_calls.mpr ⟨hMem, Tree.kind_of_macroName? hName⟩)).mp hSound
    exact ⟨fun h => h.not_slipsThrough, fun hNot => hForms.resolve_right hNot⟩

/-- A call of `vineEmits` with an object type literal and one type more. -/
def twoTypesCall : Tree :=
  .node .call ⟨17, 47⟩
    [.node (.reference "vineEmits") ⟨17, 26⟩ [],
      .node .typeArguments ⟨26, 45⟩
        [.node .typeLiteral ⟨27, 36⟩
          [.node (.propertySignature false) ⟨29, 34⟩
            [.node (.name "a") ⟨29, 30⟩ [],
              .node .typeAscription ⟨30, 34⟩ [.node .otherType ⟨32, 34⟩ []]]],
          .node .otherType ⟨38, 44⟩ []]]

/-- A call of `vineExpose` with a spread. -/
def spreadCall : Tree :=
  .node .call ⟨50, 67⟩
    [.node (.reference "vineExpose") ⟨50, 60⟩ [],
      .node .spread ⟨61, 66⟩ [.node (.reference "xs") ⟨64, 66⟩ []]]

def slippingStatement : Tree :=
  .node (.function .declaration) ⟨0, 89⟩
    [.node (.binding "A") ⟨9, 10⟩ [],
      .node .parameters ⟨10, 12⟩ [],
      .node .functionBody ⟨13, 89⟩
        [.node .expressionStatement ⟨17, 47⟩ [twoTypesCall],
          .node .expressionStatement ⟨50, 67⟩ [spreadCall],
          .node .returnStatement ⟨70, 87⟩
            [.node .taggedTemplate ⟨77, 87⟩
              [.node (.reference "vine") ⟨77, 81⟩ [],
                .node .template ⟨81, 87⟩
                  [.node (.templateText (some "<a/>")) ⟨82, 86⟩ []]]]]]

def slippingLog : DiagnosticLog where
  fileId := "slipping"
  source := "function A() \x7b\n  vineEmits<\x7b a: [] \x7d, string>()\n  vineExpose(...xs)\n" ++
    "  return vine`<a/>`\n\x7d\n"

/-- A component that passes with a call of each of the other forms. -/
theorem wellFormedCall_iff_slipping :
    ScriptParsed [slippingStatement] ∧
      (validate [slippingStatement] (componentsOf [slippingStatement]) {}
        slippingLog).1.passed = true ∧
      ∀ c ∈ componentsOf [slippingStatement], ∃ f, c.function = some f ∧
        (∀ base : MacroBase, base.isSingleton = true → (f.familyCalls base).length ≤ 1) ∧
        ∀ call ∈ f.preorder, ∀ name, call.CallsMacro name →
          (f.WellFormedCall call name ↔ ¬ call.SlipsThrough name) := by
  have hParsed : ScriptParsed [slippingStatement] := by decide +kernel
  have hPassed : (validate [slippingStatement] (componentsOf [slippingStatement]) {}
      slippingLog).1.passed = true := passed_iff.mpr ⟨by decide +kernel, by decide +kernel⟩
  exact ⟨hParsed, hPassed, wellFormedCall_iff_of_passed hParsed {} slippingLog hPassed⟩

/-- The file passes validation, and neither of its calls is well-formed. -/
theorem not_wellFormedCall_slipping :
    (validate [slippingStatement] (componentsOf [slippingStatement]) {}
        slippingLog).1.passed = true ∧
      (componentsOf [slippingStatement]).map ComponentDeclaration.function =
        [some slippingStatement] ∧
      twoTypesCall ∈ slippingStatement.preorder ∧ twoTypesCall.CallsMacro ⟨.emits, none⟩ ∧
      ¬ slippingStatement.WellFormedCall twoTypesCall ⟨.emits, none⟩ ∧
      spreadCall ∈ slippingStatement.preorder ∧ spreadCall.CallsMacro ⟨.expose, none⟩ ∧
      ¬ slippingStatement.WellFormedCall spreadCall ⟨.expose, none⟩ := by
  have hTwoTypes : slippingStatement.preorder[5]? = some twoTypesCall := rfl
  have hSpread : slippingStatement.preorder[15]? = some spreadCall := rfl
  refine ⟨passed_iff.mpr ⟨by decide +kernel, by decide +kernel⟩, rfl,
    List.mem_of_getElem? hTwoTypes, Tree.macroName?_eq_some_iff.mp rfl, ?_,
    List.mem_of_getElem? hSpread, Tree.macroName?_eq_some_iff.mp rfl, ?_⟩
  · exact fun h => h.not_slipsThrough (.types rfl rfl rfl)
  · exact fun h => h.not_slipsThrough (.spread rfl rfl)

end ComponentAnalysis
