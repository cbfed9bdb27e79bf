import ComponentAnalysis.Proofs.Macro.Collector

/-! Which calls of a function are macros, and what each is bound to. The spellings of macros are a
closed set; every call spelled so has one site, in the order of a walk, and the site has the name of
the variable that the call initializes. -/
namespace ComponentAnalysis

namespace MacroName

/-- The closed set of macros. -/
def all : List MacroName :=
  [⟨.prop, none⟩, ⟨.prop, some .isOptional⟩, ⟨.prop, some .withDefault⟩, ⟨.emits, none⟩,
    ⟨.expose, none⟩, ⟨.options, none⟩, ⟨.style, none⟩, ⟨.style, some .isScoped⟩]

/-- Every family of macros has its plain spelling in the set. -/
theorem plain_mem_all (base : MacroBase) : ⟨base, none⟩ ∈ all := by
  cases base <;> decide

/-- A variant stands in the set just with a family that has it. -/
theorem variant_mem_all {base : MacroBase} {variant : MacroVariant} :
    ⟨base, some variant⟩ ∈ all ↔ variant ∈ base.variants := by
  cases base <;> cases variant <;> decide

/-- How a macro is written as a callee: the name of its family, or that name and, behind a dot, the
name of the variant. -/
inductive Spells : MacroName → Tree → Prop where
  | plain (base : MacroBase) (span : Span) (children : List Tree) :
      Spells ⟨base, none⟩ (.node (.reference base.toString) span children)
  | dotted (base : MacroBase) (variant : MacroVariant) (span object property : Span)
      (inObject inProperty : List Tree) :
      Spells ⟨base, some variant⟩ (.node .member span
        [.node (.reference base.toString) object inObject,
          .node (.name variant.toString) property inProperty])

end MacroName

/-- Families are read by their exact names. -/
theorem MacroBase.ofString?_eq_some_iff {name : String} {base : MacroBase} :
    MacroBase.ofString? name = some base ↔ base.toString = name := by
  constructor
  · intro h
    have hFound := List.find?_some (show MacroBase.all.find? _ = some base from h)
    exact of_decide_eq_true hFound
  · rintro rfl
    cases base <;> decide

/-- Variants are read by their exact names, among those of the family. -/
theorem MacroBase.variant?_eq_some_iff {base : MacroBase} {property : String}
    {variant : MacroVariant} :
    (base.variants.find? fun variant => variant.toString = property) = some variant ↔
      variant ∈ base.variants ∧ variant.toString = property := by
  constructor
  · intro h
    have hFound := List.find?_some h
    exact ⟨List.mem_of_find?_eq_some h, of_decide_eq_true hFound⟩
  · rintro ⟨hMem, rfl⟩
    revert hMem
    cases base <;> cases variant <;> decide

namespace MacroName

/-- A name alone is a macro if it is that of a family. -/
theorem ofParts?_none_eq_some_iff {object : String} {name : MacroName} :
    ofParts? object none = some name ↔ ∃ base, base.toString = object ∧ name = ⟨base, none⟩ := by
  constructor
  · intro h
    obtain ⟨base, hBase, h⟩ := Option.bind_eq_some_iff.mp h
    exact ⟨base, MacroBase.ofString?_eq_some_iff.mp hBase, (Option.some.inj h).symm⟩
  · rintro ⟨base, hObject, rfl⟩
    exact Option.bind_eq_some_iff.mpr ⟨base, MacroBase.ofString?_eq_some_iff.mpr hObject, rfl⟩

/-- A name with a property is a macro if the property is a variant of the family. -/
theorem ofParts?_some_eq_some_iff {object property : String} {name : MacroName} :
    ofParts? object (some property) = some name ↔
      ∃ base variant, base.toString = object ∧ variant ∈ base.variants ∧
        variant.toString = property ∧ name = ⟨base, some variant⟩ := by
  constructor
  · intro h
    obtain ⟨base, hBase, h⟩ := Option.bind_eq_some_iff.mp h
    obtain ⟨variant, hVariant, h⟩ := Option.bind_eq_some_iff.mp h
    obtain ⟨hMem, hProperty⟩ := MacroBase.variant?_eq_some_iff.mp hVariant
    exact ⟨base, variant, MacroBase.ofString?_eq_some_iff.mp hBase, hMem, hProperty,
      (Option.some.inj h).symm⟩
  · rintro ⟨base, variant, hObject, hMem, hProperty, rfl⟩
    exact Option.bind_eq_some_iff.mpr ⟨base, MacroBase.ofString?_eq_some_iff.mpr hObject,
      Option.bind_eq_some_iff.mpr
        ⟨variant, MacroBase.variant?_eq_some_iff.mpr ⟨hMem, hProperty⟩, rfl⟩⟩

/-- A callee names a macro if it spells one of the closed set. -/
theorem ofCallee?_eq_some_iff {callee : Tree} {name : MacroName} :
    ofCallee? callee = some name ↔ name ∈ all ∧ name.Spells callee := by
  constructor
  · intro h
    unfold ofCallee? at h
    split at h
    · obtain ⟨base, rfl, rfl⟩ := ofParts?_none_eq_some_iff.mp h
      exact ⟨plain_mem_all base, .plain ..⟩
    · obtain ⟨base, variant, rfl, hMem, rfl, rfl⟩ := ofParts?_some_eq_some_iff.mp h
      exact ⟨variant_mem_all.mpr hMem, .dotted ..⟩
    · cases h
  · rintro ⟨hMem, hSpells⟩
    cases hSpells with
    | plain base span children => exact ofParts?_none_eq_some_iff.mpr ⟨base, rfl, rfl⟩
    | dotted base variant =>
        exact ofParts?_some_eq_some_iff.mpr
          ⟨base, variant, rfl, variant_mem_all.mp hMem, rfl, rfl⟩

end MacroName

namespace Tree

/-- A call whose callee spells a macro. -/
def CallsMacro (t : Tree) (name : MacroName) : Prop :=
  name ∈ MacroName.all ∧ ∃ callee, t.callee? = some callee ∧ name.Spells callee

/-- The name of a macro is found just at the calls that spell it. -/
theorem macroName?_eq_some_iff {t : Tree} {name : MacroName} :
    t.macroName? = some name ↔ t.CallsMacro name := by
  rw [macroName?, Option.bind_eq_some_iff]
  simp only [MacroName.ofCallee?_eq_some_iff]
  exact ⟨fun ⟨callee, hCallee, hMem, hSpells⟩ => ⟨hMem, callee, hCallee, hSpells⟩,
    fun ⟨hMem, callee, hCallee, hSpells⟩ => ⟨callee, hCallee, hMem, hSpells⟩⟩

instance (t : Tree) : Decidable (∃ name, t.CallsMacro name) :=
  decidable_of_iff (t.macroName?.isSome = true) <| by
    rw [Option.isSome_iff_exists]
    exact exists_congr fun _ => macroName?_eq_some_iff

end Tree

/-- The site of a call in a function: at the place of the call, with the macro that the callee
spells, and bound to a name just if a variable of that plain name is initialized by the call. -/
structure MacroSite.IsOf (f call : Tree) (site : MacroSite) : Prop where
  place : site.span = call.span
  named : call.CallsMacro site.name
  bound : ∀ x, site.binding = some x ↔
    ∃ d ∈ f.preorder, d.declaratorName? = some x ∧ d.IsInitializedBy call

/-- What is recorded of a call is true of it, and the binding is complete. Calls have to be told
apart by their spans, as variables are looked up by them. -/
theorem MacroSite.isOf_ofCall {f call : Tree} {name : MacroName} (hApart : f.CallsApart)
    (hMem : call ∈ f.preorder) (hName : call.macroName? = some name) :
    (MacroSite.ofCall f call name).IsOf f call where
  place := rfl
  named := Tree.macroName?_eq_some_iff.mp hName
  bound _ := Tree.bindingOfCall?_eq_some_iff hApart
    (Tree.mem_calls.mpr ⟨hMem, Tree.kind_of_macroName? hName⟩)

namespace Tree

/-- Calls and sites match one by one, in the order of any list of nodes of the function. -/
theorem forall₂_isOf {f : Tree} (hApart : f.CallsApart) {ns : List Tree}
    (hMem : ∀ n ∈ ns, n ∈ f.preorder) :
    List.Forall₂ (MacroSite.IsOf f) (ns.filter fun n => ∃ name, n.CallsMacro name)
      (ns.filterMap fun n => n.macroName?.map (MacroSite.ofCall f n)) := by
  induction ns with
  | nil => exact .nil
  | cons n ns ih =>
      have hRest := ih fun m hm => hMem m (List.mem_cons_of_mem n hm)
      cases hName : n.macroName? with
      | none =>
          have hNot : ¬ ∃ name, n.CallsMacro name := fun ⟨name, hCalls⟩ => by
            rw [macroName?_eq_some_iff.mpr hCalls] at hName
            cases hName
          rwa [List.filter_cons_of_neg (by simpa using hNot),
            List.filterMap_cons_none (by rw [hName, Option.map_none])]
      | some name =>
          have hCalls : ∃ name, n.CallsMacro name := ⟨name, macroName?_eq_some_iff.mp hName⟩
          rw [List.filter_cons_of_pos (by simpa using hCalls),
            List.filterMap_cons_some (by rw [hName, Option.map_some])]
          exact .cons (MacroSite.isOf_ofCall hApart (hMem n List.mem_cons_self) hName) hRest

/-- The walk over a function gives one site for each call that spells a macro, a call before the
calls inside it, and binds it to the plain name of the variable that the call initializes. -/
structure ResolvesMacros (f : Tree) : Prop where
  collected : (SiteCollector.visit f {}).sites = f.macroSites
  resolved : List.Forall₂ (MacroSite.IsOf f)
    (f.preorder.filter fun n => ∃ name, n.CallsMacro name) f.macroSites

/-- A function resolves all of its macros if its calls are told apart. -/
theorem CallsApart.resolvesMacros {f : Tree} (hApart : f.CallsApart) : f.ResolvesMacros where
  collected := SiteCollector.sites_visit hApart
  resolved := forall₂_isOf hApart fun _ hn => hn

/-- The tree of `function f() { let a = vineProp(vineProp.optional())!, { b } = vineEmits() }`. -/
def nestedMacros : Tree :=
  .node (.function .declaration) ⟨0, 76⟩
    [.node (.binding "f") ⟨9, 10⟩ [],
      .node .parameters ⟨10, 12⟩ [],
      .node .functionBody ⟨13, 76⟩
        [.node (.variableStatement .lexical) ⟨15, 74⟩
          [.node (.declarator .lexical) ⟨19, 53⟩
              [.node (.binding "a") ⟨19, 20⟩ [],
                .node .nonNull ⟨23, 53⟩
                  [.node .call ⟨23, 52⟩
                    [.node (.reference "vineProp") ⟨23, 31⟩ [],
                      .node .call ⟨32, 51⟩
                        [.node .member ⟨32, 49⟩
                          [.node (.reference "vineProp") ⟨32, 40⟩ [],
                            .node (.name "optional") ⟨41, 49⟩ []]]]]],
            .node (.declarator .lexical) ⟨55, 74⟩
              [.node .objectPattern ⟨55, 60⟩
                  [.node .bindingProperty ⟨57, 58⟩
                    [.node (.name "b") ⟨57, 58⟩ [], .node (.binding "b") ⟨57, 58⟩ []]],
                .node .call ⟨63, 74⟩ [.node (.reference "vineEmits") ⟨63, 72⟩ []]]]]]

/-- A call inside the call that initializes a variable is not bound, nor is one that a pattern takes
apart. -/
theorem resolvesMacros_nested : nestedMacros.CallsApart ∧ nestedMacros.ResolvesMacros ∧
    nestedMacros.macroSites.map (fun site => (site.span.start, site.binding)) =
      [(23, some "a"), (32, none), (63, none)] :=
  ⟨by decide, CallsApart.resolvesMacros (by decide), by decide⟩

end Tree

end ComponentAnalysis
