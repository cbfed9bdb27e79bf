import ComponentAnalysis.Script.Statements
import ComponentAnalysis.Proofs.Script.Declarations

/-! What the parsers of statements read, if every goal of the grammar reads the tree that it
gives. -/
namespace ComponentAnalysis.Script

open ScriptParser

/-- A jump may name a label on its line. -/
theorem placesTree_jumpStatement (word : String) (kind : Kind)
    (hKind : kind.isCall = false) : PlacesTree (jumpStatement word kind) := by
  intro c hc
  simp only [jumpStatement, gives_here]
  refine (passes_expectWord word).move (Reads.refl hc) fun _ c' h => ?_
  simp only [gives_token]
  refine gives_either placesTree_itemName h fun label c' h => ?_
  exact passes_semicolon.skip h fun _ c' h => gives_finish h _ hKind

variable {parse : Grammar} (hParse : ∀ goal, PlacesTree (parse goal)) (inFunction : Bool)

include hParse

/-- A condition is an expression in parentheses, which leave no node. -/
theorem placesTree_condition : PlacesTree (condition parse) := by
  intro c hc
  unfold condition
  refine (passes_expect "(").skip (Reads.refl hc) fun _ c' h => ?_
  refine (hParse _).step h fun value c' h => ?_
  exact (passes_expect ")").skip h fun _ c' h => gives_pure h

/-- A block is one tree over its statements. -/
theorem placesTree_block : PlacesTree (block parse inFunction) := by
  intro c hc
  simp only [block, gives_here]
  refine (passes_expect "\x7b").move (Reads.refl hc) fun _ c' h => ?_
  refine (placesTrees_repeatUntil (hParse _) "\x7d").move h fun statements c' h => ?_
  exact gives_finish h _ rfl

/-- An `if` may have a second branch. -/
theorem placesTree_ifStatement : PlacesTree (ifStatement parse inFunction) := by
  intro c hc
  simp only [ifStatement, gives_here]
  refine (passes_expectWord "if").move (Reads.refl hc) fun _ c' h => ?_
  refine (placesTree_condition hParse).step h fun test c' h => ?_
  refine (hParse _).step h fun yes c' h => ?_
  exact gives_behind (passes_eatWord "else") (hParse _) h fun no c' h => gives_finish h _ rfl

theorem placesTree_whileStatement : PlacesTree (whileStatement parse inFunction) := by
  intro c hc
  simp only [whileStatement, gives_here]
  refine (passes_expectWord "while").move (Reads.refl hc) fun _ c' h => ?_
  refine (placesTree_condition hParse).step h fun test c' h => ?_
  exact (hParse _).step h fun body c' h => gives_finish h _ rfl

theorem placesTree_doStatement : PlacesTree (doStatement parse inFunction) := by
  intro c hc
  simp only [doStatement, gives_here]
  refine (passes_expectWord "do").move (Reads.refl hc) fun _ c' h => ?_
  refine (hParse _).step h fun body c' h => ?_
  refine (passes_expectWord "while").skip h fun _ c' h => ?_
  refine (placesTree_condition hParse).step h fun test c' h => ?_
  exact (passes_eat ";").skip h fun _ c' h => gives_finish h _ rfl

/-- The first part of the head of a loop may be missing. -/
theorem placesTrees_loopHead : PlacesTrees (loopHead parse) := by
  intro c hc
  simp only [loopHead, gives_isNext]
  refine gives_if (fun _ => gives_pure (Reads.refl hc)) fun _ => ?_
  rw [gives_here]
  refine passes_variableKeyword?.skip (Reads.refl hc) fun kind c' h => ?_
  cases kind with
  | some kind =>
    apply Gives.bind
    exact (gives_variablesFrom hParse h kind false).mono fun t c' h => gives_pure h.1.weaken
  | none => exact (hParse _).step h fun t c' h => gives_pure h.weaken

/-- Which kind of loop it is shows only behind the first part of its head. -/
theorem placesTree_forStatement : PlacesTree (forStatement parse inFunction) := by
  intro c hc
  simp only [forStatement, gives_here]
  refine (passes_expectWord "for").move (Reads.refl hc) fun _ c' h => ?_
  refine (passes_eatWord "await").skip h fun _ c' h => ?_
  refine (passes_expect "(").skip h fun _ c' h => ?_
  refine (placesTrees_loopHead hParse).step h fun head c' h => ?_
  simp only [gives_isNextWord]
  refine gives_if (fun _ => ?_) fun _ => ?_
  · simp only [gives_isNextWord, gives_advance]
    refine (hParse _).step h.advance fun values c' h => ?_
    refine (passes_expect ")").skip h fun _ c' h => ?_
    exact (hParse _).step h fun body c' h => gives_finish (by simpa using h) _ (by split <;> rfl)
  · refine gives_ensure fun _ => ?_
    refine (passes_expect ";").skip h fun _ c' h => ?_
    rw [gives_isNext]
    refine gives_neither (hParse _) h fun test c' h => ?_
    refine (passes_expect ";").skip h fun _ c' h => ?_
    rw [gives_isNext]
    refine gives_neither (hParse _) h fun next c' h => ?_
    refine (passes_expect ")").skip h fun _ c' h => ?_
    exact (hParse _).step h fun body c' h => gives_finish h _ rfl

theorem placesTree_wordStatement (word : String) (kind : Kind)
    (hKind : kind.isCall = false) : PlacesTree (wordStatement parse word kind) := by
  intro c hc
  simp only [wordStatement, gives_here]
  refine (passes_expectWord word).move (Reads.refl hc) fun _ c' h => ?_
  simp only [gives_token]
  refine gives_neither (hParse _) h fun value c' h => ?_
  exact passes_semicolon.skip h fun _ c' h => gives_finish h _ hKind

theorem placesTree_throwStatement : PlacesTree (throwStatement parse) := by
  intro c hc
  simp only [throwStatement, gives_here]
  refine (passes_expectWord "throw").move (Reads.refl hc) fun _ c' h => ?_
  rw [gives_token]
  refine gives_ensure fun _ => ?_
  refine (hParse _).step h fun value c' h => ?_
  exact passes_semicolon.skip h fun _ c' h => gives_finish h _ rfl

/-- A `catch` clause may be without a parameter. -/
theorem placesTree_catchClause : PlacesTree (catchClause parse inFunction) := by
  intro c hc
  unfold catchClause
  refine gives_here.mpr ?_
  refine (passes_expectWord "catch").move (Reads.refl hc) fun _ c' h => ?_
  refine gives_following.mpr ?_
  extract_lets paramStart rest
  have hRest : ∀ parameter c', Reads true c parameter c' →
      GivesTree (rest parameter) c c' := fun parameter c' h =>
    (placesTree_block hParse inFunction).step h fun body c' h => gives_finish h _ rfl
  -- The parameter starts at the token behind the parenthesis, where the cursor then stands.
  refine gives_eat (fun _ => ?_) (hRest [] c' h)
  have h := h.advance
  refine (hParse _).step (Reads.refl h.sound) fun pattern c' hParameter => ?_
  refine (placesTrees_ascription? hParse).step hParameter fun ascription c' hParameter => ?_
  refine gives_finish_step hParameter rfl fun parameter hParameter => ?_
  exact (passes_expect ")").skip (h.trans hParameter) fun _ c' h => hRest _ c' h

theorem placesTree_tryStatement : PlacesTree (tryStatement parse inFunction) := by
  intro c hc
  simp only [tryStatement, gives_here]
  refine (passes_expectWord "try").move (Reads.refl hc) fun _ c' h => ?_
  refine (placesTree_block hParse inFunction).step h fun body c' h => ?_
  rw [gives_isNextWord]
  refine gives_either (placesTree_catchClause hParse inFunction) h fun handler c' h => ?_
  refine gives_behind (passes_eatWord "finally") (placesTree_block hParse inFunction) h
    fun final c' h => ?_
  exact gives_ensure fun _ => gives_finish h _ rfl

/-- The statements of a case end at the next one. -/
theorem placesTree_switchCase : PlacesTree (switchCase parse inFunction) := by
  intro c hc
  have hStatement : PlacesStep (do
      if (← isNextWord "case") || (← isNextWord "default") || (← isNext "\x7d") then return none
      return some (← parse (.statement inFunction))) := by
    intro c hc
    simp only [gives_isNextWord, gives_isNext]
    refine gives_if (fun _ => gives_pure (Reads.refl hc)) fun _ => ?_
    exact (hParse _).step (Reads.refl hc) fun t c' h => gives_pure h.weaken
  unfold switchCase
  refine gives_here.mpr ?_
  extract_lets rest
  have hRest : ∀ test c', Reads true c test c' → GivesTree (rest test) c c' := by
    intro test c' h
    refine (passes_expect ":").skip h fun _ c' h => ?_
    exact (placesTrees_many hStatement).step h fun statements c' h => gives_finish h _ rfl
  refine (passes_eatWord "default").branch (Reads.refl hc) (fun c' h => hRest [] c' h)
    fun c' h => ?_
  refine (passes_expectWord "case").move h fun _ c' h => ?_
  exact (hParse _).step h fun test c' h => hRest [test] c' h

theorem placesTree_switchStatement : PlacesTree (switchStatement parse inFunction) := by
  intro c hc
  simp only [switchStatement, gives_here]
  refine (passes_expectWord "switch").move (Reads.refl hc) fun _ c' h => ?_
  refine (placesTree_condition hParse).step h fun value c' h => ?_
  refine (passes_expect "\x7b").skip h fun _ c' h => ?_
  refine (placesTrees_repeatUntil (placesTree_switchCase hParse inFunction) "\x7d").move h
    fun cases c' h => ?_
  exact gives_finish h _ rfl

theorem placesTree_withStatement : PlacesTree (withStatement parse inFunction) := by
  intro c hc
  simp only [withStatement, gives_here]
  refine (passes_expectWord "with").move (Reads.refl hc) fun _ c' h => ?_
  refine (placesTree_condition hParse).step h fun value c' h => ?_
  exact (hParse _).step h fun body c' h => gives_finish h _ rfl

theorem placesTree_decoratedStatement : PlacesTree (decoratedStatement parse) := by
  intro c hc
  simp only [decoratedStatement, gives_here]
  refine (placesTrees_decorators hParse).step (Reads.refl hc) fun decorators c' h => ?_
  rw [gives_isNextWord]
  refine gives_if (fun _ => ?_) fun _ => ?_
  · rw [gives_advance]
    refine (passes_eatWord "default").skip h.advance fun _ c' h => ?_
    refine (passes_eatWord "abstract").skip h fun _ c' h => ?_
    apply Gives.bind
    exact (gives_classFrom hParse h rfl).mono fun value c' h =>
      gives_finish h _ (by split <;> rfl)
  · refine (passes_eatWord "declare").skip h fun _ c' h => ?_
    refine (passes_eatWord "abstract").skip h fun _ c' h => ?_
    exact gives_classFrom hParse h rfl

theorem placesTree_plainStatement : PlacesTree (plainStatement parse inFunction) := by
  intro c hc
  have hRefl := Reads.refl hc
  simp only [plainStatement, gives_here, gives_token, gives_following]
  refine gives_if (fun _ => ?_) fun _ => ?_
  · refine placesTree_itemName.step hRefl fun label c' h => ?_
    refine (passes_expect ":").skip h fun _ c' h => ?_
    exact (hParse _).step h fun body c' h => gives_finish h _ rfl
  · refine (hParse _).step hRefl fun value c' h => ?_
    exact passes_semicolon.skip h fun _ c' h => gives_finish h _ rfl

/-- A statement may start with a keyword of its own; if there is none, nothing has been read. -/
theorem gives_controlStatement? {c : Cursor} (hc : c.Sound) :
    GivesOption (controlStatement? parse inFunction) c c := by
  have hRefl := Reads.refl hc
  have hSome : ∀ {p : ScriptParser Tree}, PlacesTree p →
      GivesOption (p >>= fun t => pure (some t)) c c := fun hp => gives_return (hp c hc)
  simp only [controlStatement?, gives_token]
  refine gives_if (fun _ => hSome (placesTree_ifStatement hParse inFunction)) fun _ => ?_
  refine gives_if (fun _ => hSome (placesTree_forStatement hParse inFunction)) fun _ => ?_
  refine gives_if (fun _ => hSome (placesTree_whileStatement hParse inFunction)) fun _ => ?_
  refine gives_if (fun _ => hSome (placesTree_doStatement hParse inFunction)) fun _ => ?_
  refine gives_if (fun _ => gives_ensure fun _ => hSome (placesTree_wordStatement hParse _ _ rfl))
    fun _ => ?_
  refine gives_if (fun _ => hSome (placesTree_throwStatement hParse)) fun _ => ?_
  refine gives_if (fun _ => hSome (placesTree_jumpStatement _ _ rfl)) fun _ => ?_
  refine gives_if (fun _ => hSome (placesTree_jumpStatement _ _ rfl)) fun _ => ?_
  refine gives_if (fun _ => hSome (placesTree_tryStatement hParse inFunction)) fun _ => ?_
  refine gives_if (fun _ => hSome (placesTree_switchStatement hParse inFunction)) fun _ => ?_
  refine gives_if (fun _ => hSome (placesTree_withStatement hParse inFunction)) fun _ => ?_
  exact gives_if (fun _ => hSome (placesTree_jumpStatement _ _ rfl)) fun _ => gives_pure hRefl

/-- Any other statement is a declaration or an expression. -/
theorem placesTree_statement (isAmbient : Bool) :
    PlacesTree (statement parse inFunction isAmbient) := by
  intro c hc
  simp only [statement, gives_isNext]
  refine gives_if (fun _ => placesTree_block hParse inFunction c hc) fun _ => ?_
  rw [gives_isNext]
  refine gives_if (fun hText => gives_leaf hc rfl (leastLength_of_isPunctuator hText) _ rfl)
    fun _ => ?_
  rw [gives_isNext]
  refine gives_if (fun _ => placesTree_decoratedStatement hParse c hc) fun _ => ?_
  apply Gives.bind
  refine (gives_controlStatement? hParse inFunction hc).mono fun control c' h => ?_
  cases control with
  | some control => exact gives_pure h
  | none =>
    apply Gives.bind
    refine (gives_declaration? hParse h.sound isAmbient).mono fun declaration c' h' => ?_
    have h := h.trans h'
    cases declaration with
    | some declaration => exact gives_pure h
    | none => exact (placesTree_plainStatement hParse inFunction).last h

/-- At the top of a module, imports and exports are statements as well. -/
theorem placesTree_item (isAmbient : Bool) : PlacesTree (item parse isAmbient) := by
  intro c hc
  have hRefl := Reads.refl hc
  simp only [item, gives_here, gives_following, gives_isNextWord]
  refine gives_if (fun _ => gives_importFrom hParse hRefl) fun _ => ?_
  rw [gives_isNextWord]
  refine gives_if (fun _ => gives_exportFrom hParse hRefl isAmbient) fun _ => ?_
  exact placesTree_statement hParse false isAmbient c hc

end ComponentAnalysis.Script
