import ComponentAnalysis.Script.Declarations
import ComponentAnalysis.Proofs.Script.Expressions

/-! What the parsers of declarations, imports and exports read, if every goal of the grammar reads
the tree that it gives. -/
namespace ComponentAnalysis.Script

open ScriptParser

/-- Names that were read before a body become namespaces inside each other. -/
theorem Reads.nest {moved : Bool} {c c' : Cursor} {ts names : List Tree} {body : Tree}
    (h : Reads moved c (ts ++ names ++ [body]) c') :
    Reads moved c (ts ++ [names.foldr (fun name body =>
      .node .namespaceDeclaration ⟨name.span.start, body.span.stop⟩ [name, body]) body]) c' := by
  induction names generalizing ts with
  | nil => simpa using h
  | cons name names ih =>
      have hSplit : Reads moved c ((ts ++ [name]) ++ names ++ [body]) c' := by simpa using h
      exact Reads.join (by simpa using ih hSplit) _ rfl

/-- The keyword of a variable statement leaves no tree. -/
theorem passes_variableKeyword? : Passes (fun _ => false) variableKeyword? := by
  intro c hc
  have hRefl := Reads.refl hc
  simp only [variableKeyword?, gives_token, gives_following]
  refine gives_if (fun _ => gives_advance.mpr (gives_pure hRefl.advance)) fun _ => ?_
  refine gives_if (fun _ => gives_advance.mpr (gives_pure hRefl.advance)) fun _ => ?_
  refine gives_if (fun _ => gives_advance.mpr (gives_pure hRefl.advance)) fun _ => ?_
  refine gives_if (fun _ => gives_advance.mpr (gives_pure hRefl.advance)) fun _ => ?_
  refine gives_if (fun _ => ?_) fun _ => gives_pure hRefl
  exact gives_advance.mpr (gives_advance.mpr (gives_pure hRefl.advance.advance))

/-- An item of a module may be named by a string. -/
theorem placesTree_moduleItemName : PlacesTree moduleItemName :=
  places_orElse placesTree_stringNode placesTree_itemName

/-- Nothing stands below the name of an item. -/
theorem gives_moduleItemName_leaf (c : Cursor) :
    Gives moduleItemName c fun t _ => t.children = [] := by
  refine gives_orElse ?_ (gives_itemName_leaf c)
  simp only [stringNode, gives_token]
  split
  · simp only [leaf, gives_here, gives_advance]
    exact gives_finish_children
  · exact gives_failure

/-- The name of a module stands behind its keyword. -/
theorem places_fromModule : Places (fun _ => true) (fun ts => ts) fromModule := by
  intro c hc
  unfold fromModule
  refine placesTree_stringNode.step (Reads.refl hc) fun module c' h => ?_
  rw [gives_token]
  refine gives_if (fun _ => ?_) fun _ => gives_pure h
  simp only [gives_advance, gives_here]
  have hAttribute : PlacesTree (do
      let _ ← moduleItemName
      expect ":"
      stringNode) := by
    intro c hc
    refine placesTree_moduleItemName.skip (Reads.refl hc) fun _ c' h => ?_
    exact (passes_expect ":").skip h fun _ c' h => placesTree_stringNode.last h
  have h := h.advance
  refine (passes_expect "\x7b").move (Reads.refl h.sound) fun _ c' hList => ?_
  refine (places_listUntil hAttribute "\x7d").skip hList fun _ c' hList => ?_
  exact gives_finish_step hList rfl fun t hList => gives_pure (h.trans hList)

/-- Whether `type` is a mark is found out by looking ahead. -/
theorem passes_atTypeMark : Passes (fun _ => false) atTypeMark := by
  intro c hc
  have hRefl := Reads.refl hc
  simp only [atTypeMark, gives_following, gives_isNextWord]
  refine gives_if (fun _ => gives_pure hRefl) fun _ => ?_
  refine gives_if (fun _ => gives_pure hRefl) fun _ => ?_
  exact gives_if (fun _ => gives_pure hRefl) fun _ => gives_pure hRefl

/-- A specifier without an alias names its item only once. -/
theorem placesTree_importSpecifier : PlacesTree importSpecifier := by
  intro c hc
  simp only [importSpecifier, gives_here]
  refine passes_atTypeMark.skip (Reads.refl hc) fun isType c' h => ?_
  refine gives_when passes_advance h fun c' h => ?_
  rw [gives_token]
  refine placesTree_moduleItemName.stepWith (gives_moduleItemName_leaf c') h
    fun name c' hLeaf h => ?_
  refine (passes_eatWord "as").branch h (fun c' h => ?_) fun c' h => ?_
  · exact placesTree_bindingName.step h fun localName c' h => gives_finish h _ rfl
  · refine gives_ensure fun _ => ?_
    split
    · rename_i text _
      have hBinding := h.replaceFirst (Tree.standsFor_leaf name (.binding text) rfl)
      exact gives_finish_of_placed h (h.placed.shorthand hBinding.placed)
        (Tree.pairwise_leads_cons hLeaf hBinding.apart) rfl
    · exact gives_failure

/-- An import names a default, a namespace or some items, or a default beside one of the others. -/
theorem placesTrees_importClause : PlacesTrees importClause := by
  intro c hc
  unfold importClause
  refine gives_here.mpr (gives_token.mpr ?_)
  extract_lets rest
  have hRest : ∀ ts c', Reads false c ts c' → Gives (rest ts) c'
      fun ts c' => Reads false c ts c' := by
    intro ts c' h
    refine (passes_eat ",").skip h fun _ c' h => ?_
    refine gives_if (fun _ => gives_pure h) fun _ => ?_
    rw [gives_here]
    refine (passes_eat "*").branch (Reads.refl h.sound) (fun c' hNames => ?_) fun c' hNames => ?_
    · refine (passes_expectWord "as").skip hNames fun _ c' hNames => ?_
      refine placesTree_bindingName.step hNames fun name c' hNames => ?_
      exact gives_finish_step hNames rfl fun t hNames => gives_pure (h.trans hNames).weaken
    · refine (passes_expect "\x7b").skip hNames fun _ c' hNames => ?_
      refine (placesTrees_listUntil placesTree_importSpecifier "\x7d").move hNames
        fun items c' hNames => gives_pure (h.trans hNames).weaken
  refine gives_if (fun _ => ?_) fun _ => hRest [] c (Reads.refl hc)
  refine placesTree_bindingName.step (Reads.refl hc) fun name c' h => ?_
  exact gives_finish_step h rfl fun t h => hRest [t] c' h.weaken

theorem placesTree_exportSpecifier : PlacesTree exportSpecifier := by
  intro c hc
  simp only [exportSpecifier, gives_here]
  refine passes_atTypeMark.skip (Reads.refl hc) fun _ c' h => ?_
  refine gives_when passes_advance h fun c' h => ?_
  refine placesTree_moduleItemName.step h fun name c' h => ?_
  refine gives_behind (passes_eatWord "as") placesTree_moduleItemName h fun exported c' h => ?_
  exact gives_finish h _ rfl

/-- A list of exports is one tree over its items and the name of its module. -/
theorem gives_exportList {c₀ c : Cursor} {before : Bool} (h : Reads before c₀ [] c) :
    GivesTree (exportList c₀.token.start) c₀ c := by
  simp only [exportList]
  refine (passes_expect "\x7b").move h fun _ c' h => ?_
  refine (placesTrees_listUntil placesTree_exportSpecifier "\x7d").move h fun items c' h => ?_
  refine (passes_eatWord "from").skip h fun _ c' h => ?_
  refine gives_list places_fromModule h fun module c' h => ?_
  exact passes_semicolon.skip h fun _ c' h => gives_finish h _ rfl

theorem gives_exportAll {c₀ c : Cursor} {before : Bool} (h : Reads before c₀ [] c) :
    GivesTree (exportAll c₀.token.start) c₀ c := by
  simp only [exportAll]
  refine (passes_expect "*").move h fun _ c' h => ?_
  refine gives_behind (passes_eatWord "as") placesTree_moduleItemName h fun name c' h => ?_
  refine (passes_expectWord "from").skip h fun _ c' h => ?_
  refine places_fromModule.move h fun module c' h => ?_
  exact passes_semicolon.skip h fun _ c' h => gives_finish h _ rfl

variable {parse : Grammar} (hParse : ∀ goal, PlacesTree (parse goal))

include hParse

/-- A variable is read with its pattern, its type and its initializer. -/
theorem placesTree_declarator (kind : VariableKind) (allowIn : Bool) :
    PlacesTree (declarator parse kind allowIn) := by
  intro c hc
  simp only [declarator, gives_here]
  refine (hParse _).step (Reads.refl hc) fun pattern c' h => ?_
  refine (passes_eat "!").skip h fun _ c' h => ?_
  refine (placesTrees_ascription? hParse).step h fun ascription c' h => ?_
  exact (placesTrees_initializer? hParse allowIn).step h fun value c' h => gives_finish h _ rfl

/-- Several variables are one statement. Its children are given as well, since a semicolon behind
them makes another node of them. -/
theorem gives_variablesFrom {c₀ c : Cursor} {before : Bool} (h : Reads before c₀ [] c)
    (kind : VariableKind) (allowIn : Bool) :
    Gives (variablesFrom parse c₀.token.start kind allowIn) c fun t c' =>
      Reads true c₀ [t] c' ∧ Reads true c₀ t.children c' ∧ t.kind.isCall = false := by
  unfold variablesFrom
  refine (places_commaSeparated (placesTree_declarator hParse kind allowIn)).move h
    fun declarators c' h => ?_
  intro _ _ hSome
  cases hSome
  exact ⟨h.node _ h.placed (fun _ => h.apart) h.leads (by simp), h, rfl⟩

/-- A member of an enum may have an initializer. -/
theorem placesTree_enumMember : PlacesTree (enumMember parse) := by
  intro c hc
  simp only [enumMember, gives_here]
  refine (placesTree_propertyKey hParse).step (Reads.refl hc) fun key c' h => ?_
  exact (placesTrees_initializer? hParse true).step h fun value c' h => gives_finish h _ rfl

section

variable {c₀ c : Cursor}

/-- An enum is one tree over its name and its body. -/
theorem gives_enumFrom (h : Reads false c₀ [] c) :
    GivesTree (enumFrom parse c₀.token.start) c₀ c := by
  unfold enumFrom
  refine (passes_expectWord "enum").move h fun _ c' h => ?_
  refine placesTree_bindingName.step h fun name c' h => ?_
  rw [gives_here]
  refine (passes_expect "\x7b").move (Reads.refl h.sound) fun _ c' hBody => ?_
  refine (placesTrees_listUntil (placesTree_enumMember hParse) "\x7d").move hBody
    fun members c' hBody => ?_
  exact gives_finish_step hBody rfl fun body hBody => gives_finish (h.trans hBody) _ rfl

theorem gives_interfaceFrom (h : Reads false c₀ [] c) :
    GivesTree (interfaceFrom parse c₀.token.start) c₀ c := by
  simp only [interfaceFrom]
  refine (passes_expectWord "interface").move h fun _ c' h => ?_
  refine placesTree_bindingName.step h fun name c' h => ?_
  refine (placesTrees_typeParameters? hParse).step h fun generics c' h => ?_
  refine (passes_eatWord "extends").skip h fun _ c' h => ?_
  refine gives_list (places_commaSeparated (placesTree_heritage hParse)) h fun bases c' h => ?_
  rw [gives_here]
  refine (places_signatures hParse).move (Reads.refl h.sound) fun members c' hBody => ?_
  exact gives_finish_step hBody rfl fun body hBody => gives_finish (h.trans hBody) _ rfl

theorem gives_typeAliasFrom (h : Reads false c₀ [] c) :
    GivesTree (typeAliasFrom parse c₀.token.start) c₀ c := by
  unfold typeAliasFrom
  refine (passes_expectWord "type").move h fun _ c' h => ?_
  refine placesTree_bindingName.step h fun name c' h => ?_
  refine (placesTrees_typeParameters? hParse).step h fun generics c' h => ?_
  refine (passes_expect "=").skip h fun _ c' h => ?_
  refine (hParse _).step h fun type c' h => ?_
  exact passes_semicolon.skip h fun _ c' h => gives_finish h _ rfl

/-- The body of a namespace is one tree over its items. -/
theorem placesTree_namespaceBody (isAmbient : Bool) :
    PlacesTree (namespaceBody parse isAmbient) := by
  intro c hc
  simp only [namespaceBody, gives_here]
  refine (passes_expect "\x7b").move (Reads.refl hc) fun _ c' h => ?_
  refine (placesTrees_repeatUntil (hParse _) "\x7d").move h fun items c' h => ?_
  exact gives_finish h _ rfl

theorem gives_namespaceFrom (h : Reads false c₀ [] c) (isAmbient : Bool) :
    GivesTree (namespaceFrom parse c₀.token.start isAmbient) c₀ c := by
  unfold namespaceFrom
  refine gives_token.mpr ?_
  extract_lets rest
  have hRest : ∀ name c', Reads true c₀ [name] c' → GivesTree (rest name) c₀ c' := by
    intro name c' h
    refine (placesTrees_manyBehind (passes_eat ".") placesTree_bindingName).step h
      fun inner c' h => ?_
    rw [gives_isNext]
    refine gives_if (fun _ => ?_) fun _ => ?_
    · refine (placesTree_namespaceBody hParse isAmbient).step h fun body c' h => ?_
      exact gives_finish h.nest _ rfl
    · exact passes_semicolon.skip h fun _ c' h => gives_finish (h.sublist (by simp)) _ rfl
  split
  · rename_i hLexeme
    apply Gives.bind
    refine (gives_leaf h.sound hLexeme Nat.zero_lt_one _ rfl).mono fun name c' h' => ?_
    exact hRest name c' (h.trans h')
  · exact placesTree_bindingName.step h fun name c' h => hRest name c' h

/-- Which declaration follows is chosen by its keyword. -/
theorem gives_declarationFrom? (h : Reads false c₀ [] c) (isAmbient needsName : Bool) :
    GivesOption (declarationFrom? parse c₀.token.start isAmbient needsName) c₀ c := by
  unfold declarationFrom?
  refine gives_token.mpr (gives_following.mpr ?_)
  refine gives_if (fun _ => gives_return (gives_functionFrom hParse h _ _)) fun _ => ?_
  refine gives_if (fun _ => ?_) fun _ => ?_
  · exact gives_advance.mpr (gives_return (gives_functionFrom hParse h.advance _ _))
  refine gives_if (fun _ => gives_return (gives_classFrom hParse h rfl)) fun _ => ?_
  refine gives_if (fun _ => ?_) fun _ => ?_
  · exact gives_advance.mpr (gives_return (gives_classFrom hParse h.advance rfl))
  refine gives_if (fun _ => gives_return (gives_enumFrom hParse h)) fun _ => ?_
  refine gives_if (fun _ => ?_) fun _ => ?_
  · exact gives_advance.mpr (gives_return (gives_enumFrom hParse h.advance))
  refine gives_if (fun _ => gives_return (gives_interfaceFrom hParse h)) fun _ => ?_
  refine gives_if (fun _ => gives_return (gives_typeAliasFrom hParse h)) fun _ => ?_
  refine gives_if (fun _ => ?_) fun _ => ?_
  · exact gives_advance.mpr (gives_return (gives_namespaceFrom hParse h.advance _))
  extract_lets rest
  have hRest : ∀ u, GivesOption (rest u) c₀ c := by
    intro u
    refine gives_if (fun _ => gives_return (gives_namespaceFrom hParse h _)) fun _ => ?_
    refine passes_variableKeyword?.skip h fun kind c' h => ?_
    cases kind with
    | none => exact gives_pure h
    | some kind =>
      apply Gives.bind
      refine (gives_variablesFrom hParse h kind true).mono fun statement c' ⟨_, h, hKind⟩ => ?_
      refine gives_ensure fun _ => ?_
      -- The statement is made again over its declarators, now with its end.
      refine passes_semicolon.skip h fun _ c' h => ?_
      exact gives_finish_step h hKind fun t h => gives_pure h
  split
  · refine gives_if (fun _ => ?_) fun _ => hRest ()
    exact gives_advance.mpr (gives_return (gives_namespaceFrom hParse h.advance _))
  · exact hRest ()

/-- A declaration may stand behind `declare`; if there is none, no tree has been read. -/
theorem gives_declaration? {c : Cursor} (hc : c.Sound) (isAmbient : Bool) :
    GivesOption (declaration? parse isAmbient) c c := by
  have hRefl := Reads.refl hc
  simp only [declaration?, gives_here, gives_following, gives_isNextWord]
  refine gives_if (fun _ => ?_) fun _ => gives_declarationFrom? hParse hRefl _ _
  exact gives_advance.mpr (gives_declarationFrom? hParse hRefl.advance _ _)

end

theorem gives_importEquals {c₀ c : Cursor} {before : Bool} (h : Reads before c₀ [] c) :
    GivesTree (importEquals parse c₀.token.start) c₀ c := by
  unfold importEquals
  refine placesTree_bindingName.step h fun name c' h => ?_
  refine (passes_expect "=").skip h fun _ c' h => ?_
  refine (hParse _).step h fun value c' h => ?_
  exact passes_semicolon.skip h fun _ c' h => gives_finish h _ rfl

/-- An import is one tree over its specifiers and the name of its module. -/
theorem gives_importFrom {c₀ c : Cursor} (h : Reads false c₀ [] c) :
    GivesTree (importFrom parse c₀.token.start) c₀ c := by
  unfold importFrom
  refine (passes_expectWord "import").move h fun _ c' h => ?_
  rw [gives_token]
  split
  · refine places_fromModule.move h fun module c' h => ?_
    exact passes_semicolon.skip h fun _ c' h => gives_finish h _ rfl
  · simp only [gives_token, gives_following]
    refine gives_when passes_advance h fun c' h => ?_
    simp only [gives_token, gives_following]
    refine gives_if (fun _ => gives_importEquals hParse h) fun _ => ?_
    refine placesTrees_importClause.step h fun names c' h => ?_
    refine (passes_expectWord "from").skip h fun _ c' h => ?_
    refine places_fromModule.move h fun module c' h => ?_
    exact passes_semicolon.skip h fun _ c' h => gives_finish h _ rfl

section

variable {c₀ c : Cursor} {before : Bool}

/-- A default export may be a declaration without a name or an expression. -/
theorem gives_exportDefault (h : Reads before c₀ [] c) :
    GivesTree (exportDefault parse c₀.token.start) c₀ c := by
  unfold exportDefault
  refine (passes_expectWord "default").move h fun _ c' h => ?_
  have hRefl := Reads.refl h.sound
  simp only [gives_here, gives_token, gives_following]
  refine gives_if (fun _ => ?_) fun _ => ?_
  · refine (placesTrees_decorators hParse).step hRefl fun decorators c' hValue => ?_
    refine (passes_eatWord "abstract").skip hValue fun _ c' hValue => ?_
    apply Gives.bind
    exact (gives_classFrom hParse hValue rfl).mono fun value c' hValue =>
      gives_finish (h.trans hValue) _ rfl
  refine gives_if (fun _ => ?_) fun _ => ?_
  · apply Gives.bind
    refine (gives_declarationFrom? hParse hRefl _ _).mono fun value c' hValue => ?_
    cases value with
    | none => exact gives_failure
    | some value => exact gives_finish (h.trans hValue) _ rfl
  · refine (hParse _).step h fun value c' h => ?_
    exact passes_semicolon.skip h fun _ c' h => gives_finish h _ rfl

/-- Which export follows is chosen by its next token. -/
theorem gives_exportFrom (h : Reads before c₀ [] c) (isAmbient : Bool) :
    GivesTree (exportFrom parse c₀.token.start isAmbient) c₀ c := by
  unfold exportFrom
  refine (passes_expectWord "export").move h fun _ c' h => ?_
  simp only [gives_token, gives_following]
  refine gives_if (fun _ => gives_exportDefault hParse h) fun _ => ?_
  refine gives_if (fun _ => ?_) fun _ => ?_
  · rw [gives_advance]
    refine (hParse _).step h.advance fun value c' h => ?_
    exact passes_semicolon.skip h fun _ c' h => gives_finish h _ rfl
  refine gives_if (fun _ => ?_) fun _ => ?_
  · simp only [gives_advance]
    refine placesTree_itemName.step h.advance.advance fun name c' h => ?_
    exact passes_semicolon.skip h fun _ c' h => gives_finish h _ rfl
  refine gives_if (fun _ => gives_exportAll h) fun _ => ?_
  refine gives_if (fun _ => gives_exportList h) fun _ => ?_
  refine gives_if (fun _ => gives_advance.mpr (gives_exportAll h.advance)) fun _ => ?_
  refine gives_if (fun _ => gives_advance.mpr (gives_exportList h.advance)) fun _ => ?_
  have hRefl := Reads.refl h.sound
  refine gives_if (fun _ => ?_) fun _ => ?_
  · simp only [gives_here, gives_advance, gives_token, gives_following]
    refine gives_when passes_advance hRefl.advance fun c' hValue => ?_
    apply Gives.bind
    exact (gives_importEquals hParse hValue).mono fun value c' hValue =>
      gives_finish (h.trans hValue) _ rfl
  · rw [gives_here]
    refine (placesTrees_decorators hParse).step hRefl fun decorators c' hValue => ?_
    refine gives_if (fun _ => ?_) fun _ => ?_
    · have h := h.skip hValue
      apply Gives.bind
      refine (gives_declaration? hParse h.sound isAmbient).mono fun value c' hValue => ?_
      cases value with
      | none => exact gives_failure
      | some value => exact gives_finish (h.trans hValue) _ rfl
    · refine (passes_eatWord "abstract").skip hValue fun _ c' hValue => ?_
      apply Gives.bind
      exact (gives_classFrom hParse hValue rfl).mono fun value c' hValue =>
        gives_finish (h.trans hValue) _ rfl

end

end ComponentAnalysis.Script
