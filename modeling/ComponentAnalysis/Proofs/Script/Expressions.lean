import ComponentAnalysis.Script.Expressions
import ComponentAnalysis.Proofs.Script.Functions

/-! What the parsers of expressions read, if every goal of the grammar reads the tree that it
gives. -/
namespace ComponentAnalysis.Script

open ScriptParser

theorem placesTree_regexExpression : PlacesTree regexExpression := by
  intro c hc
  simp only [regexExpression, gives_token]
  split
  · rename_i token hToken
    rw [gives_replaceToken]
    split
    · rename_i hLexeme
      have hRead := (Reads.refl hc).replaceToken (Token.rereads_of_asRegex? hToken)
      exact (gives_leaf hRead.sound hLexeme Nat.zero_lt_one _ rfl).mono fun t c' h =>
        hRead.trans h
    · exact gives_failure
  · exact gives_failure

/-- An access by name is a node around its object. -/
theorem gives_access {c₀ c : Cursor} {before : Bool} {object : Tree}
    (h : Reads before c₀ [object] c) :
    GivesTree (access c₀.token.start object) c₀ c := by
  simp only [access, gives_token]
  split
  · rename_i hLexeme
    apply Gives.bind
    refine (gives_leaf h.sound hLexeme Nat.zero_lt_one _ rfl).mono fun name c' h' => ?_
    exact gives_finish ((h.trans h').of_mem List.mem_cons_self) _ rfl
  · exact placesTree_itemName.step h fun name c' h => gives_finish h _ rfl

/-- A token may be widened or left on the way. -/
theorem gives_widen {β : Type} {condition : Prop} [Decidable condition] {c₀ c : Cursor}
    {before : Bool} {ts : List Tree} {rest : ScriptParser β} {Q : β → Cursor → Prop}
    (h : Reads before c₀ ts c) (hRest : ∀ c', Reads before c₀ ts c' → Gives rest c' Q) :
    Gives (if condition then token >>= fun token => replaceToken token.widen >>= fun _ => rest
      else rest) c Q := by
  refine gives_if (fun _ => ?_) fun _ => hRest c h
  simp only [gives_token, gives_replaceToken]
  exact hRest _ (h.replaceToken (Token.rereads_widen h.sound.solid))

variable {parse : Grammar} (hParse : ∀ goal, PlacesTree (parse goal))

include hParse

/-- In a shorthand the value stands at the place of the key. -/
theorem placesTree_objectProperty : PlacesTree (objectProperty parse) := by
  intro c hc
  simp only [objectProperty, gives_here]
  refine (passes_eat "...").branch (Reads.refl hc) (fun c' h => ?_) fun c' h => ?_
  · exact (hParse _).step h fun value c' h => gives_finish h _ rfl
  · simp only [gives_token, gives_following]
    refine gives_when passes_advance h fun c' h => ?_
    refine (passes_eat "*").skip h fun isGenerator c' h => ?_
    rw [gives_token]
    refine (placesTree_propertyKey hParse).stepWith (gives_propertyKey_leaf c') h
      fun key c' hLeaf h => ?_
    simp only [gives_isNext]
    split
    · exact (placesTree_methodFunction hParse).step h fun function c' h => gives_finish h _ rfl
    · refine gives_ensure fun _ => ?_
      refine (passes_eat ":").branch h (fun c' h => ?_) fun c' h => ?_
      · exact (hParse _).step h fun value c' h => gives_finish h _ rfl
      · refine gives_ensure fun hName => ?_
        split
        · rename_i text _
          refine (placesTrees_initializer? hParse true).step h fun value c' h => ?_
          have hReference := h.replaceFirst (Tree.standsFor_leaf key (.reference text) rfl)
          exact gives_finish_of_placed h (h.placed.shorthand hReference.placed)
            (Tree.pairwise_leads_cons (hLeaf hName) hReference.apart) rfl
        · exact gives_failure

/-- An element of an array may be spread. -/
theorem placesTree_element : PlacesTree (element parse) := by
  intro c hc
  simp only [element, gives_here]
  refine (passes_eat "...").branch (Reads.refl hc) (fun c' h => ?_) fun c' h => ?_
  · exact (hParse _).step h fun value c' h => gives_finish h _ rfl
  · exact (hParse _).last h

/-- A hole stands at a comma, which is read only after it. -/
theorem places_arrayElements :
    Places (fun _ => true) (fun ts => ts) (listUntil "]" (arrayElement parse)) := by
  have hStep : Places (fun _ => false) (fun t => t.elim [] fun t => [t]) (do
      if ← isNext "]" then return none
      let a ← arrayElement parse
      if !(← isNext "]") then expect ","
      return some a) := by
    intro c hc
    rw [gives_isNext]
    refine gives_if (fun _ => gives_pure (Reads.refl hc)) fun hClose => ?_
    simp only [arrayElement]
    apply Gives.bind
    rw [gives_token]
    refine gives_if (fun hComma => gives_pure ?_) fun _ => ?_
    · rw [gives_isNext]
      refine gives_if (fun _ => gives_expect fun _ => gives_pure ?_) fun hNot => ?_
      · have hRead := (Reads.refl hc).advance_moved (leastLength_of_isPunctuator hComma)
        exact (hRead.node .elision (Tree.allPlaced_nil _) (fun _ => .nil) .nil (by simp)).weaken
      · simp [hClose] at hNot
    · refine (placesTree_element hParse c hc).mono fun t c' h => ?_
      rw [gives_isNext]
      exact gives_when (passes_expect ",") h fun c' h => gives_pure h.weaken
  simpa only [List.flatMap_singleton'] using places_listUntil_of_step hStep

/-- Arguments are read between parentheses. -/
theorem places_arguments : Places (fun _ => true) (fun ts => ts) (arguments parse) := by
  intro c hc
  unfold arguments
  refine (passes_expect "(").move (Reads.refl hc) fun _ c' h => ?_
  refine (placesTrees_listUntil (placesTree_element hParse) ")" c' h.sound).mono fun ts c'' h' => ?_
  exact h.trans h'

/-- They end before the closing parenthesis, so a call ends behind its arguments. -/
theorem gives_arguments_enclosed {c : Cursor} (hc : c.Sound) :
    Gives (arguments parse) c fun ts c' => ∀ t ∈ ts, t.span.stop < c'.lastStop := by
  unfold arguments
  refine (passes_expect "(").move (Reads.refl hc) fun _ c' h => ?_
  exact gives_listUntil_enclosed (placesTree_element hParse) ")" h.sound

/-- An arrow function is one tree over its signature and its body. -/
theorem gives_arrowFrom {c₀ c : Cursor} {before : Bool} {signature : List Tree}
    (h : Reads before c₀ signature c) (allowIn inBranch : Bool) :
    GivesTree (arrowFrom parse c₀.token.start signature allowIn inBranch) c₀ c := by
  simp only [arrowFrom, gives_token]
  refine gives_ensure fun _ => ?_
  refine (passes_expect "=>").move h fun _ c' h => ?_
  rw [gives_isNext]
  split
  · exact (placesTree_functionBody hParse).step h fun body c' h => gives_finish h _ rfl
  · refine (hParse _).step h fun value c' h => ?_
    -- A value alone is the only statement of a body, over the same text.
    have hValue := ((Tree.StandsFor.refl value).wrap .expressionStatement rfl).wrap
      .functionBody rfl
    have hBody : Reads true c₀ (signature ++ [.node .functionBody value.span
        [.node .expressionStatement value.span [value]]]) c' := h.replaceLast hValue
    exact gives_finish hBody _ rfl

/-- The signature of an arrow function is read like that of any other. -/
theorem places_arrowSignature : Places (fun _ => true) (fun ts => ts) (arrowSignature parse) := by
  intro c hc
  unfold arrowSignature
  refine (places_callShape hParse).move (Reads.refl hc) fun shape c' h => ?_
  simp only [gives_isNext, gives_token]
  exact gives_ensure fun _ => gives_pure h

/-- Parentheses are tried as a signature before they are read as an expression. -/
theorem gives_parenthesizedArrow? {c₀ c : Cursor} (h : Reads false c₀ [] c)
    (allowIn inBranch : Bool) :
    GivesOption (parenthesizedArrow? parse c₀.token.start allowIn inBranch) c₀ c := by
  simp only [parenthesizedArrow?, gives_get]
  refine gives_attempt ((places_arrowSignature hParse c h.sound).mono fun signature c' h' => ?_)
    (gives_pure h)
  have hArrow := gives_arrowFrom hParse (h.trans h') allowIn inBranch
  -- Where the arrow is given up, parsing goes on from the cursor of `h`.
  refine gives_if (fun _ => ?_) fun _ => gives_return hArrow
  refine gives_attempt (hArrow.mono fun arrow c' h' => ?_) (gives_set (gives_pure h))
  rw [gives_isNext]
  exact gives_if (fun _ => gives_pure h') fun _ => gives_set (gives_pure h)

theorem gives_nameArrow {c₀ c : Cursor} (h : Reads false c₀ [] c) (allowIn inBranch : Bool) :
    GivesTree (nameArrow parse c₀.token.start allowIn inBranch) c₀ c := by
  unfold nameArrow
  refine placesTree_bindingName.step h fun name c' h => ?_
  have hParameters : Reads true c₀ ([] ++ [.node .parameters name.span
      [.node .parameter name.span [name]]]) c' :=
    h.replaceLast (((Tree.StandsFor.refl name).wrap .parameter rfl).wrap .parameters rfl)
  exact gives_arrowFrom hParse hParameters allowIn inBranch

/-- An arrow function may start with a name or with parentheses; if none is found, nothing has been
read. -/
theorem gives_arrow? {c : Cursor} (hc : c.Sound) (allowIn inBranch : Bool) :
    GivesOption (arrow? parse allowIn inBranch) c c := by
  have hRefl := Reads.refl hc
  have hParenthesized := gives_parenthesizedArrow? hParse hRefl allowIn inBranch
  simp only [arrow?, gives_here, gives_token, gives_following]
  refine gives_if (fun _ => gives_return (gives_nameArrow hParse hRefl _ _)) fun _ => ?_
  refine gives_if (fun _ => ?_) fun _ => ?_
  · refine gives_if (fun _ => ?_) fun _ => ?_
    · rw [gives_advance]
      exact gives_return (gives_nameArrow hParse hRefl.advance _ _)
    refine gives_if (fun _ => ?_) fun _ => ?_
    · simp only [gives_get, gives_advance]
      apply Gives.bind
      refine (gives_parenthesizedArrow? hParse hRefl.advance _ _).mono fun arrow c' h => ?_
      cases arrow with
      | none => exact gives_set (gives_pure hRefl)
      | some arrow => exact gives_pure h
    · exact gives_if (fun _ => hParenthesized) fun _ => gives_pure hRefl
  · exact gives_if (fun _ => hParenthesized) fun _ => gives_pure hRefl

/-- Words that are no names have a node of their own. -/
theorem placesTree_wordExpression : PlacesTree (wordExpression parse) := by
  intro c hc
  have hRefl := Reads.refl hc
  simp only [wordExpression, gives_here, gives_token, gives_following]
  refine gives_if (fun hWord => gives_leaf hc rfl (leastLength_of_isWord hWord) _ rfl) fun _ => ?_
  refine gives_if (fun hWord => gives_leaf hc rfl (leastLength_of_isWord hWord) _ rfl) fun _ => ?_
  refine gives_if (fun hWord => gives_leaf hc rfl (leastLength_of_isWord hWord) _ rfl) fun _ => ?_
  refine gives_if (fun hWord => gives_leaf hc rfl (leastLength_of_isWord hWord) _ rfl) fun _ => ?_
  refine gives_if (fun hWord => gives_leaf hc rfl (leastLength_of_isWord hWord) _ rfl) fun _ => ?_
  refine gives_if (fun _ => gives_functionFrom hParse hRefl _ _) fun _ => ?_
  refine gives_if (fun _ => ?_) fun _ => ?_
  · rw [gives_advance]
    exact gives_functionFrom hParse hRefl.advance _ _
  refine gives_if (fun _ => gives_classFrom hParse hRefl rfl) fun _ => ?_
  refine gives_if (fun _ => ?_) fun _ => ?_
  · rw [gives_advance]
    have hCall : ∀ c', Reads false c [] c' →
        GivesTree (do finish .importCall c.token.start (← arguments parse)) c c' := fun c' h =>
      (places_arguments hParse).move h fun arguments c' h => gives_finish h _ rfl
    refine (passes_eat ".").branch hRefl.advance (fun c' h => ?_) hCall
    refine passes_anyWord.skip h fun name c' h => ?_
    rw [gives_isNext]
    split
    · exact hCall c' h.weaken
    · exact gives_ensure fun _ => gives_finish h _ rfl
  · exact placesTree_referenceName c hc

/-- An expression without suffixes is chosen by its first token. -/
theorem placesTree_primary : PlacesTree (primary parse) := by
  intro c hc
  have hRefl := Reads.refl hc
  simp only [primary, gives_here, gives_token]
  split
  · exact placesTree_wordExpression hParse c hc
  · rename_i hLexeme
    exact gives_leaf hc hLexeme Nat.zero_lt_one _ rfl
  · rename_i hLexeme
    exact gives_leaf hc hLexeme Nat.zero_lt_one _ rfl
  · rename_i hLexeme
    exact gives_leaf hc hLexeme Nat.zero_lt_one _ rfl
  · exact placesTree_untaggedTemplate (hParse _) c hc
  · rw [gives_advance]
    refine (hParse _).step hRefl.advance fun inner c' h => ?_
    exact (passes_expect ")").skip h fun _ c' h => gives_finish h _ rfl
  · rw [gives_advance]
    refine (places_arrayElements hParse).move hRefl.advance fun elements c' h => ?_
    exact gives_finish h _ rfl
  · rw [gives_advance]
    refine (placesTrees_listUntil (placesTree_objectProperty hParse) "\x7d").move hRefl.advance
      fun properties c' h => ?_
    exact gives_finish h _ rfl
  · refine (placesTrees_decorators hParse).step hRefl fun decorators c' h => ?_
    exact gives_classFrom hParse h rfl
  · exact placesTree_regexExpression c hc
  · exact placesTree_regexExpression c hc
  · exact gives_failure

/-- Type arguments in an expression are only tried, as the bracket may be an operator. -/
theorem gives_expressionTypeArguments? {c : Cursor} (hc : c.Sound) :
    GivesOption (expressionTypeArguments? parse) c c := by
  have hTypes : PlacesTree (do
      let types ← typeArguments parse
      ensure (endsTypeArguments (← ScriptParser.token))
      return types) := by
    intro c hc
    refine (placesTree_typeArguments hParse).step (Reads.refl hc) fun types c' h => ?_
    rw [gives_token]
    exact gives_ensure fun _ => gives_pure h
  simp only [expressionTypeArguments?, gives_token]
  refine gives_if (fun _ => gives_pure (Reads.refl hc)) fun _ => ?_
  exact gives_attempt_last (hTypes c hc) (Reads.refl hc)

section

variable {c₀ c : Cursor} {before : Bool} {object : Tree}

/-- An access by index is a node around its object. -/
theorem gives_indexAccess (h : Reads before c₀ [object] c) :
    GivesTree (indexAccess parse c₀.token.start object) c₀ c := by
  unfold indexAccess
  refine (passes_expect "[").skip h fun _ c' h => ?_
  refine (hParse _).step h fun index c' h => ?_
  exact (passes_expect "]").skip h fun _ c' h => gives_finish h _ rfl

/-- The parenthesis behind the arguments of a call ends it. -/
theorem gives_callOn {types : List Tree} (h : Reads before c₀ (object :: types) c) :
    GivesTree (callOn parse c₀.token.start object types) c₀ c := by
  unfold callOn
  apply Gives.bind
  refine ((places_arguments hParse c h.sound).and
    (gives_arguments_enclosed hParse h.sound)).mono fun arguments c' ⟨h', hEnclosed⟩ => ?_
  have hAll := h.trans h'
  rw [Bool.or_true] at hAll
  refine gives_finish_call hAll
    ⟨List.cons_ne_nil _ _, List.forall_mem_append.mpr ⟨?_, hEnclosed⟩⟩
  intro t ht
  have hStop : t.span.stop ≤ c.token.start := Nat.le_trans (h.placed t ht).2.2 h.sound.behind
  exact Nat.lt_of_le_of_lt hStop (h'.moved rfl)

/-- So is an optional access, of whichever form. -/
theorem gives_optionalAccess (h : Reads before c₀ [object] c) :
    GivesTree (optionalAccess parse c₀.token.start object) c₀ c := by
  simp only [optionalAccess, gives_isNext]
  refine gives_if (fun _ => gives_callOn hParse h) fun _ => ?_
  rw [gives_isNext]
  refine gives_if (fun _ => gives_indexAccess hParse h) fun _ => ?_
  simp only [gives_isNext]
  refine gives_if (fun _ => ?_) fun _ => gives_access h
  exact (placesTree_typeArguments hParse).step h fun types c' h => gives_callOn hParse h

/-- A step of access wraps the object or leaves it. -/
theorem gives_accessStep (h : Reads true c₀ [object] c) :
    Gives (accessStep parse c₀.token.start object) c fun t c' =>
      Reads true c₀ [t.getD object] c' := by
  simp only [accessStep, gives_token]
  refine (passes_eat ".").branch h (fun c' h => gives_return (gives_access h)) fun c' h => ?_
  refine gives_if (fun _ => gives_return (gives_indexAccess hParse h)) fun _ => ?_
  refine gives_if (fun _ => ?_) fun _ => ?_
  · rw [gives_advance]
    exact gives_finish_step h.advance rfl fun t h => gives_pure h
  · split
    · refine (placesTree_template (hParse _)).step h fun text c' h => ?_
      exact gives_finish_step h rfl fun t h => gives_pure h
    · exact gives_pure h

/-- A suffix wraps the expression so far or leaves it. -/
theorem gives_suffixStep (h : Reads true c₀ [object] c) (isOptional : Bool) :
    Gives (suffixStep parse c₀.token.start (object, isOptional)) c fun state c' =>
      Reads true c₀ [(state.getD (object, isOptional)).1] c' := by
  simp only [suffixStep]
  apply Gives.bind
  refine (gives_accessStep hParse h).mono fun next c' h => ?_
  cases next with
  | some next => exact gives_pure h
  | none =>
    refine (passes_eat "?.").branch h (fun c' h => gives_return (gives_optionalAccess hParse h))
      fun c' h => ?_
    rw [gives_isNext]
    refine gives_if (fun _ => gives_return (gives_callOn hParse h)) fun _ => ?_
    apply Gives.bind
    refine (gives_expressionTypeArguments? hParse h.sound).mono fun types c' h' => ?_
    have h := h.trans h'
    cases types with
    | none => exact gives_pure h
    | some types =>
      dsimp only
      rw [gives_isNext]
      refine gives_if (fun _ => gives_return (gives_callOn hParse h)) fun _ => ?_
      rw [gives_token]
      split
      · refine (placesTree_template (hParse _)).step h fun text c' h => ?_
        exact gives_finish_step h rfl fun t h => gives_pure h
      · exact gives_finish_step h rfl fun t h => gives_pure h

end

theorem placesTree_constructFrom : PlacesTree (constructFrom parse) := by
  intro c hc
  simp only [constructFrom, gives_here]
  refine (passes_expectWord "new").move (Reads.refl hc) fun _ c' h => ?_
  refine (passes_eat ".").branch h (fun c' h => ?_) fun c' h => ?_
  · exact passes_anyWord.skip h fun _ c' h => gives_finish h _ rfl
  · simp only [gives_here, gives_isNextWord]
    refine gives_oneOf (hParse _) (placesTree_primary hParse) (Reads.refl h.sound)
      fun base c₁ hBase => ?_
    apply Gives.bind
    refine (gives_iterate (I := fun object c₂ => Reads true c' [object] c₂)
      (fun _ _ h => gives_accessStep hParse h) hBase).mono fun callee c₂ hCallee => ?_
    apply Gives.bind
    refine (gives_expressionTypeArguments? hParse hCallee.sound).mono fun types c' hTypes => ?_
    have h := (h.trans hCallee).trans hTypes
    rw [gives_isNext]
    refine gives_list (places_arguments hParse) h fun arguments c' h => ?_
    exact gives_finish h _ rfl

/-- Suffixes are read one after the other, from the inside out. -/
theorem placesTree_leftHand : PlacesTree (leftHand parse) := by
  intro c hc
  simp only [leftHand, gives_here, gives_isNextWord]
  refine gives_oneOf (placesTree_constructFrom hParse) (placesTree_primary hParse)
    (Reads.refl hc) fun base c' h => ?_
  apply Gives.bind
  refine (gives_iterate (a := (base, false))
    (I := fun (state : Tree × Bool) c' => Reads true c [state.1] c')
    (fun state _ h => gives_suffixStep hParse h state.2) h).mono fun state c' h => ?_
  exact gives_if (fun _ => gives_finish h _ rfl) fun _ => gives_pure h

/-- Prefix operators are read from the outside in. -/
theorem placesTree_unary : PlacesTree (unary parse) := by
  intro c hc
  have hRefl := Reads.refl hc
  have hPrefixed : ∀ kind, kind.isCall = false → GivesTree (do
      advance
      let operand ← parse .unary
      finish kind c.token.start [operand]) c c := fun kind hKind =>
    gives_advance.mpr ((hParse _).step hRefl.advance fun operand c' h => gives_finish h kind hKind)
  simp only [unary, gives_here, gives_token]
  refine gives_if (fun _ => hPrefixed _ rfl) fun _ => ?_
  refine gives_if (fun _ => hPrefixed _ rfl) fun _ => ?_
  refine gives_if (fun _ => hPrefixed _ rfl) fun _ => ?_
  refine gives_if (fun _ => ?_) fun _ => ?_
  · rw [gives_advance]
    refine (hParse _).step hRefl.advance fun type c' h => ?_
    refine (passes_expect ">").skip h fun _ c' h => ?_
    exact (hParse _).step h fun operand c' h => gives_finish h _ rfl
  · refine (placesTree_leftHand hParse).step hRefl fun operand c' h => ?_
    rw [gives_token]
    refine gives_if (fun _ => ?_) fun _ => gives_pure h
    rw [gives_advance]
    exact gives_finish h.advance _ rfl

omit hParse in
/-- No operator makes a call. -/
theorem isCall_operationKind (operator : String) : (operationKind operator).isCall = false := by
  unfold operationKind
  split_ifs <;> rfl

/-- A binary operator takes the expression so far as its left operand. -/
theorem gives_operationStep {c₀ c : Cursor} {left : Tree} (h : Reads true c₀ [left] c)
    (precedence : Nat) (allowIn : Bool) :
    Gives (operationStep parse c₀.token.start precedence allowIn left) c fun t c' =>
      Reads true c₀ [t.getD left] c' := by
  simp only [operationStep, gives_token]
  refine gives_widen h fun c' h => ?_
  rw [gives_token]
  split
  · exact gives_pure h
  · refine gives_if (fun _ => gives_pure h) fun _ => ?_
    rw [gives_advance]
    refine gives_oneOf (hParse _) (hParse _) h.advance fun right c' h => ?_
    exact gives_finish_step h (isCall_operationKind _) fun t h => gives_pure h

/-- Operators are read from left to right as long as they bind tightly enough. -/
theorem placesTree_operand (precedence : Nat) (allowIn : Bool) :
    PlacesTree (operand parse precedence allowIn) := by
  intro c hc
  have hRefl := Reads.refl hc
  have hIterate : ∀ left c', Reads true c [left] c' →
      GivesTree (iterate (operationStep parse c.token.start precedence allowIn) left) c c' :=
    fun left c' h => gives_iterate (fun _ _ h => gives_operationStep hParse h precedence allowIn) h
  simp only [operand, gives_here, gives_token]
  split
  · rename_i hLexeme
    apply Gives.bind
    refine (gives_leaf hc hLexeme Nat.zero_lt_one _ rfl).mono fun name c' h => ?_
    refine (passes_expectWord "in").skip h fun _ c' h => ?_
    refine (hParse _).step h fun object c' h => ?_
    exact gives_finish_step h rfl fun left h => hIterate left _ h
  · exact (placesTree_unary hParse).step hRefl fun left c' h => hIterate left c' h

theorem placesTree_yieldExpression (allowIn : Bool) :
    PlacesTree (yieldExpression parse allowIn) := by
  intro c hc
  simp only [yieldExpression, gives_here]
  refine (passes_expectWord "yield").move (Reads.refl hc) fun _ c' h => ?_
  rw [gives_token]
  refine gives_if (fun _ => gives_finish h _ rfl) fun _ => ?_
  refine (passes_eat "*").skip h fun _ c' h => ?_
  exact (hParse _).step h fun value c' h => gives_finish h _ rfl

/-- An assignment is tried as an arrow function first, then as an operand that an operator may
follow. -/
theorem placesTree_assignment (allowIn inBranch : Bool) :
    PlacesTree (assignment parse allowIn inBranch) := by
  intro c hc
  simp only [assignment, gives_isNextWord]
  refine gives_if (fun _ => placesTree_yieldExpression hParse allowIn c hc) fun _ => ?_
  apply Gives.bind
  refine (gives_arrow? hParse hc allowIn inBranch).mono fun arrow c' h => ?_
  cases arrow with
  | some arrow => exact gives_pure h
  | none =>
    refine Gives.mono ?_ fun t c'' h' => h.trans h'
    have hRefl := Reads.refl h.sound
    rw [gives_here]
    refine (placesTree_operand hParse 0 allowIn).step hRefl fun target c' h => ?_
    refine (passes_eat "?").branch h (fun c' h => ?_) fun c' h => ?_
    · refine (hParse _).step h fun yes c' h => ?_
      refine (passes_expect ":").skip h fun _ c' h => ?_
      exact (hParse _).step h fun no c' h => gives_finish h _ rfl
    · rw [gives_token]
      refine gives_if (fun _ => ?_) fun _ => gives_pure h
      refine gives_ensure fun _ => ?_
      rw [gives_advance]
      exact (hParse _).step h.advance fun value c' h => gives_finish h _ rfl

/-- Expressions between commas are one sequence; a single one is left as it is. -/
theorem placesTree_expression (allowIn : Bool) : PlacesTree (expression parse allowIn) := by
  intro c hc
  simp only [expression, gives_here]
  refine (hParse _).step (Reads.refl hc) fun first c' h => ?_
  refine (placesTrees_manyBehind (passes_eat ",") (hParse _)).step h fun others c' h => ?_
  refine gives_if (fun _ => ?_) fun _ => gives_finish h _ rfl
  exact gives_pure (h.sublist (List.sublist_append_left _ _))

end ComponentAnalysis.Script
