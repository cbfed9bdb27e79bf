import ComponentAnalysis.Script.Types
import ComponentAnalysis.Proofs.Script.Goal

/-! What the parsers of types read, if every goal of the grammar reads the tree that it gives. -/
namespace ComponentAnalysis.Script

open ScriptParser

theorem passes_skipVariance : Passes (fun _ => false) skipVariance := by
  intro c hc
  unfold skipVariance
  refine (passes_many ?_).skip (Reads.refl hc) fun _ c' h => gives_pure h
  intro c hc
  simp only [gives_token, gives_following]
  split
  · exact gives_advance.mpr (gives_pure (Reads.refl hc).advance)
  · exact gives_pure (Reads.refl hc)

theorem passes_signatureEnd : Passes (fun _ => false) signatureEnd := by
  intro c hc
  unfold signatureEnd
  refine (passes_eat ",").skip (Reads.refl hc) fun _ c' h => ?_
  split
  · exact (passes_semicolon c' h.sound).mono fun _ _ h' => h.skip h'
  · exact gives_pure h

/-- Whether an index signature follows is found out by looking ahead. -/
theorem passes_atIndexSignature : Passes (fun _ => false) atIndexSignature := by
  intro c hc
  unfold atIndexSignature
  exact (passes_attempt (passes_lookAhead _)).skip (Reads.refl hc) fun _ c' h => gives_pure h

theorem passes_skipSign : Passes (fun _ => false) skipSign := by
  intro c hc
  unfold skipSign
  refine (passes_eat "+").skip (Reads.refl hc) fun _ c' h => ?_
  split
  · exact (passes_eat "-").skip h fun _ c' h => gives_pure h
  · exact gives_pure h

/-- A word that is a type has some text. -/
theorem leastLength_of_isTypeWord {token : Token}
    (h : (isVariableName token || typeWords.any (isWord token)) = true) :
    0 < token.lexeme.leastLength := by
  rcases (Bool.or_eq_true _ _).mp h with hName | hWord
  · exact leastLength_of_isVariableName hName
  · obtain ⟨word, -, hWord⟩ := List.any_eq_true.mp hWord
    exact leastLength_of_isWord hWord

/-- Several operands are joined to one type; a single one is left as it is. -/
theorem placesTree_joinedTypes (operator : String) {item : ScriptParser Tree}
    (hItem : PlacesTree item) : PlacesTree (joinedTypes operator item) := by
  intro c hc
  simp only [joinedTypes, gives_here]
  refine (passes_eat operator).skip (Reads.refl hc) fun leads c' h => ?_
  refine hItem.step h fun first c' h => ?_
  refine (placesTrees_manyBehind (passes_eat operator) hItem).step h fun others c' h => ?_
  split
  · exact gives_finish h _ rfl
  · exact gives_pure (h.sublist (List.sublist_append_left _ _))

variable {parse : Grammar} (hParse : ∀ goal, PlacesTree (parse goal))

include hParse

/-- Type arguments stand between angle brackets, of which the first may be taken out of a longer
operator. -/
theorem placesTree_typeArguments : PlacesTree (typeArguments parse) := by
  intro c hc
  have hRead := (Reads.refl hc).replaceToken (Token.rereads_narrow hc.solid)
  simp only [typeArguments, gives_token, gives_replaceToken]
  -- The arguments start at the narrowed token, which starts where the token does.
  refine Gives.mono ?_ fun t c' h => hRead.trans h
  rw [gives_here]
  refine (passes_expect "<").move (Reads.refl hRead.sound) fun _ c' h => ?_
  refine (placesTrees_listUntil (hParse _) ">").move h fun types c' h => ?_
  exact gives_ensure fun _ => gives_finish h _ rfl

/-- They may be missing. -/
theorem placesTrees_typeArguments? : PlacesTrees (typeArguments? parse) := by
  intro c hc
  simp only [typeArguments?, gives_isNext]
  split
  · exact (placesTree_typeArguments hParse).step (Reads.refl hc) fun _ c' h => gives_pure h.weaken
  · exact gives_pure (Reads.refl hc)

/-- A type parameter is read with its bound and its default. -/
theorem placesTree_typeParameter : PlacesTree (typeParameter parse) := by
  intro c hc
  simp only [typeParameter, gives_here]
  refine passes_skipVariance.skip (Reads.refl hc) fun _ c' h => ?_
  refine placesTree_bindingName.step h fun name c' h => ?_
  refine gives_behind (passes_eatWord _) (hParse _) h fun bound c' h => ?_
  refine gives_behind (passes_eat _) (hParse _) h fun value c' h => ?_
  exact gives_finish h _ rfl

theorem placesTree_typeParameters : PlacesTree (typeParameters parse) := by
  intro c hc
  simp only [typeParameters, gives_here]
  refine (passes_expect "<").move (Reads.refl hc) fun _ c' h => ?_
  refine (placesTrees_listUntil (placesTree_typeParameter hParse) ">").move h fun items c' h => ?_
  exact gives_ensure fun _ => gives_finish h _ rfl

theorem placesTrees_typeParameters? : PlacesTrees (typeParameters? parse) := by
  intro c hc
  simp only [typeParameters?, gives_isNext]
  split
  · exact (placesTree_typeParameters hParse).step (Reads.refl hc) fun _ c' h => gives_pure h.weaken
  · exact gives_pure (Reads.refl hc)

/-- A call signature is its type parameters, its parameters and its result. -/
theorem places_callShape : Places (fun _ => true) (fun ts => ts) (callShape parse) := by
  intro c hc
  unfold callShape
  refine (placesTrees_typeParameters? hParse).step (Reads.refl hc) fun generics c' h => ?_
  refine (placesTree_parameters hParse).step h fun parameters c' h => ?_
  refine (placesTrees_ascription? hParse).step h fun result c' h => gives_pure ?_
  simpa using h

/-- An index signature is one tree over the types of its key and its value. -/
theorem gives_indexSignature {c₀ c : Cursor} (h : Reads false c₀ [] c) :
    GivesTree (indexSignature parse c₀.token.start) c₀ c := by
  unfold indexSignature
  refine (passes_expect "[").move h fun _ c' h => ?_
  refine passes_anyWord.skip h fun _ c' h => ?_
  refine (placesTrees_ascription? hParse).step h fun key c' h => ?_
  refine (passes_expect "]").skip h fun _ c' h => ?_
  refine (placesTrees_ascription? hParse).step h fun value c' h => ?_
  refine passes_signatureEnd.skip h fun _ c' h => ?_
  exact gives_finish h _ rfl

/-- A member of an object type is one tree, whichever form it has. -/
theorem placesTree_signature : PlacesTree (signature parse) := by
  intro c hc
  have hRefl := Reads.refl hc
  simp only [signature, gives_here, gives_token, gives_following]
  split
  · refine (places_callShape hParse).move hRefl fun shape c' h => ?_
    exact passes_signatureEnd.skip h fun _ c' h => gives_finish h _ rfl
  · split
    · rw [gives_advance]
      refine (places_callShape hParse).move hRefl.advance fun shape c' h => ?_
      exact passes_signatureEnd.skip h fun _ c' h => gives_finish h _ rfl
    · refine gives_when passes_advance hRefl fun c' h => ?_
      refine passes_atIndexSignature.skip h fun _ c' h => ?_
      split
      · exact gives_indexSignature hParse h
      · simp only [gives_token, gives_following]
        refine gives_when passes_advance h fun c' h => ?_
        refine (placesTree_propertyKey hParse).step h fun key c' h => ?_
        refine (passes_eat "?").skip h fun _ c' h => ?_
        simp only [gives_isNext]
        split
        · refine (places_callShape hParse).move h fun shape c' h => ?_
          exact passes_signatureEnd.skip h fun _ c' h => gives_finish h _ rfl
        · refine (placesTrees_ascription? hParse).step h fun ascription c' h => ?_
          exact passes_signatureEnd.skip h fun _ c' h => gives_finish h _ rfl

theorem places_signatures : Places (fun _ => true) (fun ts => ts) (signatures parse) := by
  intro c hc
  unfold signatures
  refine (passes_expect "\x7b").move (Reads.refl hc) fun _ c' h => ?_
  refine (placesTrees_repeatUntil (placesTree_signature hParse) "\x7d" c' h.sound).mono ?_
  exact fun _ _ h' => h.trans h'

/-- A mapped type is one tree over its name, its keys and its value. -/
theorem gives_mappedType {c₀ c : Cursor} (h : Reads false c₀ [] c) :
    GivesTree (mappedType parse c₀.token.start) c₀ c := by
  unfold mappedType
  refine (passes_expect "\x7b").move h fun _ c' h => ?_
  refine passes_skipSign.skip h fun _ c' h => ?_
  refine (passes_eatWord "readonly").skip h fun _ c' h => ?_
  refine (passes_expect "[").skip h fun _ c' h => ?_
  refine placesTree_bindingName.step h fun name c' h => ?_
  refine (passes_expectWord "in").skip h fun _ c' h => ?_
  refine (hParse _).step h fun keys c' h => ?_
  refine gives_behind (passes_eatWord "as") (hParse _) h fun renamed c' h => ?_
  refine (passes_expect "]").skip h fun _ c' h => ?_
  refine passes_skipSign.skip h fun _ c' h => ?_
  refine (passes_eat "?").skip h fun _ c' h => ?_
  refine (placesTrees_ascription? hParse).step h fun value c' h => ?_
  refine Places.skip (places_orElse (passes_eat ";") (passes_eat ",")) h fun _ c' h => ?_
  refine (passes_expect "\x7d").skip h fun _ c' h => ?_
  exact gives_finish h _ rfl

/-- The name that an element of a tuple may have leaves no tree. -/
theorem placesTree_tupleElement : PlacesTree (tupleElement parse) := by
  intro c hc
  simp only [tupleElement, gives_here]
  refine (passes_eat "...").skip (Reads.refl hc) fun _ c' h => ?_
  have hNamed : Passes (fun _ => true) (do
      let _ ← anyWord
      let _ ← eat "?"
      expect ":") := by
    intro c hc
    refine passes_anyWord.move (Reads.refl hc) fun _ c' h => ?_
    refine (passes_eat "?").skip h fun _ c' h => ?_
    exact (passes_expect ":" c' h.sound).mono fun _ _ h' => h.skip h'
  refine (passes_attempt hNamed).skip h fun named c' h => ?_
  refine (hParse _).step h fun type c' h => ?_
  refine (passes_eat "?").skip h fun _ c' h => ?_
  rw [gives_here]
  split
  · exact gives_finish h _ rfl
  · exact gives_pure h

/-- A name with dots is one type. -/
theorem gives_qualifiedType {c₀ c : Cursor} (h : Reads true c₀ [] c) :
    GivesTree (qualifiedType parse c₀.token.start) c₀ c := by
  unfold qualifiedType
  have hName : Passes (fun _ => false) (do
      if ← eat "." then return some (← anyWord)
      return none) := by
    intro c hc
    refine (passes_eat ".").branch (Reads.refl hc) (fun c' h => ?_) fun c' h => gives_pure h
    exact passes_anyWord.skip h fun _ c' h => gives_pure h.weaken
  refine (passes_many hName).skip h fun _ c' h => ?_
  simp only [gives_isNext, gives_token]
  split
  · refine (placesTree_typeArguments hParse).step h fun types c' h => ?_
    exact gives_finish h _ rfl
  · exact gives_finish h _ rfl

theorem gives_importType {c₀ c : Cursor} (h : Reads true c₀ [] c) :
    GivesTree (importType parse c₀.token.start) c₀ c := by
  unfold importType
  have hItem : PlacesTree (do
      if ← isNext "\x7b" then parse (.assignment true false) else parse (.type true)) := by
    intro c hc
    rw [gives_isNext]
    split
    · exact hParse _ c hc
    · exact hParse _ c hc
  refine (passes_expect "(").skip h fun _ c' h => ?_
  refine (places_listUntil hItem ")").skip h fun _ c' h => ?_
  exact gives_ensure fun _ => gives_qualifiedType hParse h

theorem placesTree_wordType : PlacesTree (wordType parse) := by
  intro c hc
  have hRefl := Reads.refl hc
  simp only [wordType, gives_here, gives_token, gives_following]
  refine gives_if (fun hBoolean => ?_) fun _ => ?_
  · rw [Bool.and_eq_true] at hBoolean
    exact gives_leaf hc rfl (leastLength_of_isWord hBoolean.1) _ rfl
  refine gives_if (fun hTypeof => ?_) fun _ => ?_
  · rw [gives_advance]
    have h := hRefl.advance_moved (leastLength_of_isWord hTypeof)
    refine (passes_eatWord "import").branch h (fun c' h => gives_importType hParse h) fun c' h => ?_
    exact passes_anyWord.skip h fun _ c' h => gives_qualifiedType hParse h
  refine gives_if (fun hImport => ?_) fun _ => ?_
  · rw [gives_advance]
    exact gives_importType hParse (hRefl.advance_moved (leastLength_of_isWord hImport))
  refine gives_if (fun _ => ?_) fun _ => ?_
  · rw [gives_advance]
    refine passes_anyWord.move hRefl.advance fun _ c' h => ?_
    exact gives_behind (passes_eatWord "is") (hParse _) h fun type c' h => gives_finish h _ rfl
  · refine gives_ensure fun hWord => ?_
    rw [gives_advance]
    have h := hRefl.advance_moved (leastLength_of_isTypeWord hWord)
    refine gives_if (fun _ => ?_) fun _ => gives_qualifiedType hParse h
    rw [gives_advance]
    exact (hParse _).step h.advance fun type c' h => gives_finish h _ rfl

/-- A type without suffixes is chosen by its first token. -/
theorem placesTree_primaryType : PlacesTree (primaryType parse) := by
  intro c hc
  have hRefl := Reads.refl hc
  simp only [primaryType, gives_here, gives_token]
  split
  · exact placesTree_wordType hParse c hc
  · rename_i hLexeme
    exact gives_leaf hc hLexeme Nat.zero_lt_one _ rfl
  · rename_i hLexeme
    exact gives_leaf hc hLexeme Nat.zero_lt_one _ rfl
  · rename_i hLexeme
    exact gives_leaf hc hLexeme Nat.zero_lt_one _ rfl
  · refine (placesTree_untaggedTemplate (hParse _)).step hRefl fun literal c' h => ?_
    -- The texts of the literal come before its types, wherever they stand.
    obtain ⟨hLiteral, hWithin⟩ := h.placed literal (List.mem_singleton_self _)
    exact gives_finish_of_placed h (hLiteral.allPlaced.mono hWithin) hLiteral.leads rfl
  · rename_i hLexeme
    simp only [gives_advance]
    have h := hRefl.advance_moved (by rw [hLexeme]; exact Nat.zero_lt_one)
    exact gives_finish h.advance _ rfl
  · rw [gives_advance]
    refine (hParse _).step hRefl.advance fun type c' h => ?_
    exact (passes_expect ")").skip h fun _ c' h => gives_finish h _ rfl
  · rw [gives_advance]
    refine (placesTrees_listUntil (placesTree_tupleElement hParse) "]").move hRefl.advance
      fun elements c' h => ?_
    exact gives_finish h _ rfl
  · refine gives_attempt ((gives_mappedType hParse hRefl).mono fun _ _ h => gives_pure h) ?_
    exact (places_signatures hParse).move hRefl fun members c' h => gives_finish h _ rfl
  · exact gives_failure

/-- Brackets behind a type wrap it. -/
theorem placesTree_postfixType : PlacesTree (postfixType parse) := by
  intro c hc
  simp only [postfixType, gives_here]
  refine (placesTree_primaryType hParse).step (Reads.refl hc) fun type c' h => ?_
  refine gives_iterate (I := fun type c' => Reads true c [type] c') (fun type c' h => ?_) h
  simp only [postfixType.step, gives_token]
  split
  · exact gives_pure h
  · refine (passes_eat "[").branch h (fun c' h => ?_) fun c' h => gives_pure h
    refine (passes_eat "]").branch h (fun c' h => ?_) fun c' h => ?_
    · exact gives_finish_step h rfl fun array h => gives_pure h
    · refine (hParse _).step h fun index c' h => ?_
      refine (passes_expect "]").skip h fun _ c' h => ?_
      exact gives_finish_step h rfl fun access h => gives_pure h

theorem placesTree_typeOperand : PlacesTree (typeOperand parse) := by
  intro c hc
  have hRefl := Reads.refl hc
  simp only [typeOperand, gives_here, gives_token, gives_following]
  split
  · rw [gives_advance]
    exact (hParse _).step hRefl.advance fun type c' h => gives_finish h _ rfl
  · exact placesTree_postfixType hParse c hc

/-- The bound of an inferred type is only tried, as `extends` may belong to a conditional. -/
theorem placesTree_inferredType (allowConditional : Bool) :
    PlacesTree (inferredType parse allowConditional) := by
  intro c hc
  simp only [inferredType, gives_here]
  refine (passes_expectWord "infer").move (Reads.refl hc) fun _ c' h => ?_
  refine placesTree_bindingName.step h fun name c' h => ?_
  have hBound : PlacesTree (do
      expectWord "extends"
      let bound ← parse (.type false)
      ensure (!allowConditional || !(← isNext "?"))
      return bound) := by
    intro c hc
    refine (passes_expectWord "extends").move (Reads.refl hc) fun _ c' h => ?_
    refine (hParse _).step h fun bound c' h => ?_
    rw [gives_isNext]
    exact gives_ensure fun _ => gives_pure h
  refine gives_attempt ((hBound c' h.sound).mono fun bound c' h' => ?_) (gives_finish h _ rfl)
  exact gives_finish (h.trans h') _ rfl

/-- Unions bind less than intersections. -/
theorem placesTree_unionType (allowConditional : Bool) :
    PlacesTree (unionType parse allowConditional) := by
  refine placesTree_joinedTypes _ (placesTree_joinedTypes _ ?_)
  intro c hc
  simp only [gives_following, gives_isNextWord]
  split
  · exact placesTree_inferredType hParse _ c hc
  · exact placesTree_typeOperand hParse c hc

theorem gives_functionType_tail {c₀ c : Cursor} (h : Reads false c₀ [] c) :
    GivesTree (functionType?.tail parse c₀.token.start) c₀ c := by
  unfold functionType?.tail
  refine (placesTrees_typeParameters? hParse).step h fun generics c' h => ?_
  refine (placesTree_parameters hParse).step h fun parameters c' h => ?_
  refine (passes_expect "=>").skip h fun _ c' h => ?_
  refine (hParse _).step h fun result c' h => ?_
  exact gives_finish (by simpa using h) _ rfl

/-- A function type is tried first, as its parameters look like a type in parentheses. -/
theorem gives_functionType? {c : Cursor} (hc : c.Sound) :
    GivesOption (functionType? parse) c c := by
  have hRefl := Reads.refl hc
  have hParameters : PlacesTree (do
      let p ← parameters parse
      expect "=>"
      return p) := by
    intro c hc
    refine (placesTree_parameters hParse).step (Reads.refl hc) fun p c' h => ?_
    exact (passes_expect "=>").skip h fun _ c' h => gives_pure h
  simp only [functionType?, gives_here, gives_token, gives_following]
  refine gives_if (fun _ => ?_) fun _ => ?_
  · simp only [gives_advance]
    exact gives_return (gives_functionType_tail hParse hRefl.advance.advance)
  refine gives_if (fun _ => ?_) fun _ => ?_
  · rw [gives_advance]
    exact gives_return (gives_functionType_tail hParse hRefl.advance)
  refine gives_if (fun _ => gives_return (gives_functionType_tail hParse hRefl)) fun _ => ?_
  refine gives_if (fun _ => ?_) fun _ => gives_pure hRefl
  refine gives_attempt ((hParameters c hc).mono fun parameters c' h => ?_) (gives_pure hRefl)
  refine (hParse _).step h fun result c' h => ?_
  exact gives_finish_step h rfl fun type h => gives_pure h

/-- A type may be a conditional on types. -/
theorem placesTree_type (allowConditional : Bool) : PlacesTree (type parse allowConditional) := by
  intro c hc
  unfold type
  apply Gives.bind
  refine (gives_functionType? hParse hc).mono fun found c' h => ?_
  cases found with
  | some type => exact gives_pure h
  | none =>
    refine Gives.mono ?_ fun t c'' h' => h.trans h'
    have hRefl := Reads.refl h.sound
    rw [gives_here]
    refine (placesTree_unionType hParse allowConditional).step hRefl fun checked c' h => ?_
    simp only [gives_isNextWord, gives_token]
    split
    · rw [gives_advance]
      refine (hParse _).step h.advance fun bound c' h => ?_
      refine (passes_expect "?").skip h fun _ c' h => ?_
      refine (hParse _).step h fun yes c' h => ?_
      refine (passes_expect ":").skip h fun _ c' h => ?_
      exact (hParse _).step h fun no c' h => gives_finish h _ rfl
    · exact gives_pure h

end ComponentAnalysis.Script
