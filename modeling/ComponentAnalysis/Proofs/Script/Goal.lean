import ComponentAnalysis.Script.Goal
import ComponentAnalysis.Proofs.Script.Parser

/-! What the parsers of names, keys, binding patterns and parameters read, if every goal of the
grammar reads the tree that it gives. -/
namespace ComponentAnalysis

namespace Tree

/-- A text of a template may be empty. Nothing else that is parsed is. -/
theorem parsed_templateText (value : Option String) {span : Span}
    (h : span.start ≤ span.stop) : (node (.templateText value) span []).Parsed := by
  refine ⟨⟨fun n hn => ?_, fun n hn => ?_⟩, fun n hn hCall => ?_⟩
  · obtain rfl := List.mem_singleton.mp hn
    exact ⟨h, fun hCovers => Bool.noConfusion hCovers, fun _ hc => (List.not_mem_nil hc).elim,
      fun _ => List.Pairwise.nil⟩
  · obtain rfl := List.mem_singleton.mp hn
    exact List.Pairwise.nil
  · obtain rfl := List.mem_singleton.mp hn
    cases hCall

end Tree

namespace Script

open ScriptParser

theorem passes_anyWord : Passes (fun _ => true) anyWord := by
  intro c hc
  simp only [anyWord, gives_token]
  split
  · rename_i hLexeme
    rw [gives_advance]
    exact gives_pure ((Reads.refl hc).advance_moved (by rw [hLexeme]; exact Nat.zero_lt_one))
  · exact gives_failure

/-- A name has some text. -/
theorem leastLength_of_isVariableName {token : Token} (h : isVariableName token = true) :
    0 < token.lexeme.leastLength := by
  unfold isVariableName at h
  split at h
  · rename_i hLexeme
    rw [hLexeme]
    exact Nat.zero_lt_one
  · cases h

/-- A word that is no keyword is passed over like any other token. -/
theorem passes_plainWord : Passes (fun _ => true) plainWord := by
  intro c hc
  simp only [plainWord, gives_token]
  exact gives_ensure fun _ => passes_anyWord c hc

theorem placesTree_bindingName : PlacesTree bindingName := by
  intro c hc
  simp only [bindingName, gives_here]
  exact passes_plainWord.move (Reads.refl hc) fun _ c' h => gives_finish h _ rfl

theorem placesTree_referenceName : PlacesTree referenceName := by
  intro c hc
  simp only [referenceName, gives_here]
  exact passes_plainWord.move (Reads.refl hc) fun _ c' h => gives_finish h _ rfl

theorem placesTree_itemName : PlacesTree itemName := by
  intro c hc
  simp only [itemName, gives_here]
  exact passes_anyWord.move (Reads.refl hc) fun _ c' h => gives_finish h _ rfl

/-- The name of an item has nothing below it. -/
theorem gives_itemName_leaf (c : Cursor) : Gives itemName c fun t _ => t.children = [] := by
  simp only [itemName, gives_here]
  exact Gives.bind fun _ _ _ => gives_finish_children

theorem placesTree_stringNode : PlacesTree stringNode := by
  intro c hc
  simp only [stringNode, gives_token]
  split
  · rename_i hLexeme
    exact gives_leaf hc hLexeme Nat.zero_lt_one _ rfl
  · exact gives_failure

/-- Modifiers leave no trees. -/
theorem passes_skipParameterModifiers : Passes (fun _ => false) skipParameterModifiers := by
  intro c hc
  unfold skipParameterModifiers
  refine (passes_many ?_).skip (Reads.refl hc) fun _ c' h => gives_pure h
  intro c hc
  simp only [gives_token, gives_following]
  split
  · exact gives_advance.mpr (gives_pure (Reads.refl hc).advance)
  · exact gives_pure (Reads.refl hc)

/-- The marks of a part of a template take at least two characters, or three before an item. -/
theorem Token.start_le_stop_of_templatePart {token : Token} (hSolid : token.Solid)
    {value : Option String} {opens : Bool} (hLexeme : token.lexeme = .templatePart value opens) :
    token.start + 1 ≤ token.stop - if opens then 2 else 1 := by
  have hText : token.lexeme.leastLength ≤ Text.byteLength token.text := hSolid
  have hStop : token.stop = token.start + Text.byteLength token.text := rfl
  rw [hLexeme] at hText
  cases opens with
  | true =>
      have hText : 3 ≤ Text.byteLength token.text := hText
      simp only [if_true]
      omega
  | false =>
      have hText : 2 ≤ Text.byteLength token.text := hText
      simp only [Bool.false_eq_true, if_false]
      omega

/-- A part of a template is a leaf, read between its marks. -/
theorem gives_part {c : Cursor} (hc : c.Sound) {value : Option String} {opens : Bool}
    (hLexeme : c.token.lexeme = .templatePart value opens) :
    Gives (template.part value opens) c fun t c' =>
      Reads true c [] c' ∧ t.children = [] ∧ t.Parsed ∧
        t.span.Within ⟨c.token.start, c'.lastStop⟩ := by
  simp only [template.part, gives_token, gives_advance]
  refine gives_pure
    ⟨(Reads.refl hc).advance_moved ?_, rfl, ?_, Nat.le_add_right _ _, Nat.sub_le _ _⟩
  · rw [hLexeme]
    cases opens <;> exact Nat.succ_pos _
  · exact Tree.parsed_templateText value (Token.start_le_stop_of_templatePart hc.solid hLexeme)

/-- What a template has read of its items and texts. A node lists all texts before the items, so
only the items are in order; a text may be empty, and nothing stands below it. -/
structure TemplateReads (c : Cursor) (texts items : List Tree) (c' : Cursor) : Prop where
  items : Reads true c items.reverse c'
  leaves : ∀ t ∈ texts, t.children = []
  texts : Tree.AllPlaced ⟨c.token.start, c'.lastStop⟩ texts

/-- Each step of a template reads an item and the text behind it. -/
theorem gives_templateNext {item : ScriptParser Tree} (hItem : PlacesTree item) {c c' : Cursor}
    {texts items : List Tree} {opens : Bool} (h : TemplateReads c texts items c') :
    Gives (template.next item (texts, items, opens)) c' fun state c'' =>
      TemplateReads c (state.getD (texts, items, opens)).1
        (state.getD (texts, items, opens)).2.1 c'' := by
  cases opens with
  | false => exact gives_pure h
  | true =>
    unfold template.next
    apply Gives.bind
    refine (hItem c' h.items.sound).mono fun item c₁ hNext => ?_
    rw [gives_token]
    split
    · rename_i token hToken
      rw [gives_replaceToken]
      split
      · rename_i value opens hLexeme
        have hRead := (h.items.trans hNext).replaceToken (Token.rereads_of_asTemplatePart? hToken)
        apply Gives.bind
        refine (gives_part hRead.sound hLexeme).mono
          fun text c₂ ⟨hMoved, hLeaf, hParsed, hWithin⟩ => ?_
        have hStop := Nat.le_trans hNext.lastStop_le hMoved.lastStop_le
        refine gives_pure ⟨?_, List.forall_mem_cons.mpr ⟨hLeaf, h.leaves⟩,
          Tree.allPlaced_cons.mpr ⟨⟨hParsed, ?_⟩, ?_⟩⟩
        · simp only [Option.getD_some, List.reverse_cons]
          exact hRead.skip hMoved
        · exact hWithin.trans ⟨hRead.start_le, Nat.le_refl _⟩
        · exact h.texts.mono ⟨Nat.le_refl _, hStop⟩
      · exact gives_failure
    · exact gives_failure

/-- A template is one tree over its texts and items, although it lists the texts first. -/
theorem placesTree_template {item : ScriptParser Tree} (hItem : PlacesTree item) :
    PlacesTree (template item) := by
  intro c hc
  simp only [template, gives_here, gives_token]
  split
  · rename_i value opens hLexeme
    apply Gives.bind
    refine (gives_part hc hLexeme).mono fun first c₁ hPart => ?_
    obtain ⟨hMoved, hLeaf, hParsed, hWithin⟩ := hPart
    have hFirst : TemplateReads c [first] [] c₁ :=
      ⟨hMoved, List.forall_mem_singleton.mpr hLeaf,
        Tree.allPlaced_cons.mpr ⟨⟨hParsed, hWithin⟩, Tree.allPlaced_nil _⟩⟩
    apply Gives.bind
    refine (gives_iterate (a := ([first], [], opens))
      (I := fun (state : List Tree × List Tree × Bool) c' => TemplateReads c state.1 state.2.1 c')
      (fun _ _ h => gives_templateNext hItem h) hFirst).mono fun state c' h => ?_
    refine gives_finish_of_placed h.items ?_ ?_ rfl
    · refine Tree.allPlaced_append.mpr ⟨fun t ht => h.texts t (List.mem_reverse.mp ht), ?_⟩
      exact h.items.placed
    · refine Tree.pairwise_leads_append (fun t ht => h.leaves t (List.mem_reverse.mp ht)) ?_
      exact h.items.apart
  · exact gives_failure

theorem placesTree_untaggedTemplate {item : ScriptParser Tree} (hItem : PlacesTree item) :
    PlacesTree (untaggedTemplate item) := by
  intro c hc
  unfold untaggedTemplate
  refine (placesTree_template hItem).step (Reads.refl hc) fun literal c' h => ?_
  exact gives_ensure fun _ => gives_pure h

variable {parse : Grammar} (hParse : ∀ goal, PlacesTree (parse goal))

include hParse

/-- A key may be a name, a literal or an expression in brackets. -/
theorem placesTree_propertyKey : PlacesTree (propertyKey parse) := by
  intro c hc
  have hRefl := Reads.refl hc
  simp only [propertyKey, gives_token]
  split
  · exact placesTree_itemName c hc
  · rename_i hLexeme
    exact gives_leaf hc hLexeme Nat.zero_lt_one _ rfl
  · rename_i hLexeme
    exact gives_leaf hc hLexeme Nat.zero_lt_one _ rfl
  · rename_i hLexeme
    exact gives_leaf hc hLexeme Nat.zero_lt_one _ rfl
  · rename_i hLexeme
    exact gives_leaf hc hLexeme Nat.zero_lt_one _ rfl
  · rw [gives_advance]
    refine (hParse _).step hRefl.advance fun key c' h => ?_
    exact (passes_expect "]").move h fun _ c'' h' => gives_pure h'
  · exact gives_failure

omit hParse in
/-- Nothing stands below a key that could be the name of a variable. -/
theorem gives_propertyKey_leaf (c : Cursor) :
    Gives (propertyKey parse) c fun t _ => isVariableName c.token = true → t.children = [] := by
  simp only [propertyKey, gives_token]
  split
  · exact (gives_itemName_leaf c).mono fun _ _ hLeaf _ => hLeaf
  all_goals
    rename_i hLexeme
    intro _ _ _ hName
    simp [isVariableName, hLexeme] at hName

/-- An initializer may be missing. -/
theorem placesTrees_initializer? (allowIn : Bool) : PlacesTrees (initializer? parse allowIn) := by
  intro c hc
  unfold initializer?
  refine (passes_eat "=").branch (Reads.refl hc) (fun c' h => ?_) fun c' h => gives_pure h
  exact (hParse _).step h fun value c' h => gives_pure h.weaken

/-- So may a type behind a colon. -/
theorem placesTrees_ascription? : PlacesTrees (ascription? parse) := by
  intro c hc
  simp only [ascription?, gives_here]
  refine (passes_eat ":").branch (Reads.refl hc) (fun c' h => ?_) fun c' h => gives_pure h
  refine (hParse _).step h fun type c' h => ?_
  exact gives_finish_step h rfl fun ascription h => gives_pure h.weaken

/-- An element of a pattern may have a default value. -/
theorem placesTree_patternElement : PlacesTree (patternElement parse) := by
  intro c hc
  simp only [patternElement, gives_here]
  refine (hParse _).step (Reads.refl hc) fun pattern c' h => ?_
  refine (placesTrees_initializer? hParse true).step h fun value c'' h' => ?_
  split
  · exact gives_pure h'
  · exact gives_finish h' _ rfl

theorem placesTree_restPattern : PlacesTree (restPattern parse) := by
  intro c hc
  simp only [restPattern, gives_here]
  refine (passes_expect "...").move (Reads.refl hc) fun _ c' h => ?_
  exact (hParse _).step h fun pattern c'' h' => gives_finish h' _ rfl

theorem placesTree_bindingProperty : PlacesTree (bindingProperty parse) := by
  intro c hc
  simp only [bindingProperty, gives_isNext]
  split
  · exact placesTree_restPattern hParse c hc
  · simp only [gives_here, gives_token]
    refine (placesTree_propertyKey hParse).stepWith (gives_propertyKey_leaf c) (Reads.refl hc)
      fun key c' hLeaf h => ?_
    refine (passes_eat ":").branch h (fun c' h => ?_) fun c' h => ?_
    · refine (placesTree_patternElement hParse).step h fun value c' h => ?_
      exact gives_finish h _ rfl
    · refine gives_ensure fun hName => ?_
      split
      · rename_i text _
        refine (placesTrees_initializer? hParse true).step h fun value c' h => ?_
        have hBinding := h.replaceFirst (Tree.standsFor_leaf key (.binding text) rfl)
        split
        · exact gives_finish_of_placed h (h.placed.shorthand hBinding.placed)
            (Tree.pairwise_leads_cons (hLeaf hName) hBinding.apart) rfl
        · refine gives_finish_step hBinding rfl fun pattern hPattern => ?_
          exact gives_finish_of_placed h (h.placed.shorthand hPattern.placed)
            (Tree.pairwise_leads_cons (hLeaf hName) hPattern.apart) rfl
      · exact gives_failure

/-- In an array an element may be left out. -/
theorem placesTrees_arrayPatternElement : PlacesTrees (arrayPatternElement parse) := by
  intro c hc
  simp only [arrayPatternElement, gives_isNext]
  split
  · exact gives_pure (Reads.refl hc)
  · rw [gives_isNext]
    split
    · exact (placesTree_restPattern hParse).step (Reads.refl hc) fun _ _ h => gives_pure h.weaken
    · exact (placesTree_patternElement hParse).step (Reads.refl hc) fun _ _ h =>
        gives_pure h.weaken

/-- A pattern is a name or takes an object or an array apart. -/
theorem placesTree_bindingPattern : PlacesTree (bindingPattern parse) := by
  intro c hc
  simp only [bindingPattern, gives_here]
  refine (passes_eat "[").branch (Reads.refl hc) (fun c' h => ?_) fun c' h => ?_
  · refine (places_listUntil (placesTrees_arrayPatternElement hParse) "]").move h
      fun elements c' h => ?_
    rw [List.flatMap_id'] at h
    exact gives_finish h _ rfl
  · refine (passes_eat "\x7b").branch h (fun c' h => ?_) fun c' h => ?_
    · refine (placesTrees_listUntil (placesTree_bindingProperty hParse) "\x7d").move h
        fun properties c' h => ?_
      exact gives_finish h _ rfl
    · exact placesTree_bindingName.last h

theorem placesTrees_decorators : PlacesTrees (decorators parse) := by
  apply placesTrees_many
  intro c hc
  rw [gives_here]
  refine (passes_eat "@").branch (Reads.refl hc) (fun c' h => ?_) fun c' h => gives_pure h
  refine (hParse _).step h fun expression c' h => ?_
  exact gives_finish_step h rfl fun decorator h => gives_pure h.weaken

/-- A parameter is read with its decorators, its type and its default value. -/
theorem placesTree_parameter : PlacesTree (parameter parse) := by
  intro c hc
  simp only [parameter, gives_here]
  refine (placesTrees_decorators hParse).step (Reads.refl hc) fun decorators c' h => ?_
  refine passes_skipParameterModifiers.skip h fun _ c' h => ?_
  refine (passes_eatWord "this").branch h (fun c' h => ?_) fun c' h => ?_
  · refine (placesTrees_ascription? hParse).step h fun ascription c' h => ?_
    exact gives_finish (h.sublist (List.sublist_append_right _ _)) _ rfl
  · refine (passes_eat "...").branch h (fun c' h => ?_) fun c' h => ?_
    · refine (hParse _).step h fun pattern c' h => ?_
      refine (placesTrees_ascription? hParse).step h fun ascription c' h => ?_
      rw [List.append_assoc] at h
      exact gives_finish (h.sublist (List.sublist_append_right _ _)) _ rfl
    · refine (hParse _).step h fun pattern c' h => ?_
      refine (passes_eat "?").skip h fun _ c' h => ?_
      refine (placesTrees_ascription? hParse).step h fun ascription c' h => ?_
      refine (placesTrees_initializer? hParse true).step h fun value c' h => ?_
      exact gives_finish (by simpa using h) _ rfl

/-- The parameters of a function are one tree over all of them. -/
theorem placesTree_parameters : PlacesTree (parameters parse) := by
  intro c hc
  simp only [parameters, gives_here]
  refine (passes_expect "(").move (Reads.refl hc) fun _ c' h => ?_
  refine (placesTrees_listUntil (placesTree_parameter hParse) ")").move h fun items c' h => ?_
  exact gives_ensure fun _ => gives_finish h _ rfl

end Script

end ComponentAnalysis
