import ComponentAnalysis.Script.Program
import ComponentAnalysis.Proofs.Script.Statements

/-! Every script that is parsed is placed, and walks over it are in order. -/
namespace ComponentAnalysis.Script

open ScriptParser

/-- Each production reads a tree if those that it calls do. -/
theorem placesTree_production {parse : Grammar} (hParse : ∀ goal, PlacesTree (parse goal))
    (goal : Goal) : PlacesTree (production parse goal) := by
  cases goal with
  | item isAmbient => exact placesTree_item hParse isAmbient
  | statement inFunction => exact placesTree_statement hParse inFunction false
  | expression allowIn => exact placesTree_expression hParse allowIn
  | assignment allowIn inBranch => exact placesTree_assignment hParse allowIn inBranch
  | operand precedence allowIn => exact placesTree_operand hParse precedence allowIn
  | unary => exact placesTree_unary hParse
  | leftHand => exact placesTree_leftHand hParse
  | pattern => exact placesTree_bindingPattern hParse
  | type allowConditional => exact placesTree_type hParse allowConditional
  | typeOperand => exact placesTree_typeOperand hParse

/-- To any depth the grammar reads trees. At depth `0` it reads nothing. -/
theorem placesTree_grammar (depth : Nat) (goal : Goal) : PlacesTree (grammar depth goal) := by
  induction depth generalizing goal with
  | zero => exact fun _ _ => gives_failure
  | succ depth ih => exact placesTree_production ih goal

/-- The statements of a script stand in order up to the end of its text. -/
theorem placesTrees_items (depth : Nat) : PlacesTrees (items depth) := by
  have hItem : PlacesStep (do
      if (← token).lexeme == .endOfInput then return none
      return some (← grammar depth (.item false))) := by
    intro c hc
    rw [gives_token]
    refine gives_if (fun _ => gives_pure (Reads.refl hc)) fun _ => ?_
    exact (placesTree_grammar depth _).step (Reads.refl hc) fun t c' h => gives_pure h.weaken
  intro c hc
  unfold items
  refine (placesTrees_many hItem).step (Reads.refl hc) fun ts c' h => ?_
  rw [gives_token]
  exact gives_ensure fun _ => gives_pure h

/-- The statements of a script that is parsed are trees as parsers give them. -/
theorem scriptParsed_of_parse? {source : String} {program : List Tree}
    (h : parse? source = some program) : ScriptParsed program := by
  obtain ⟨⟨statements, last⟩, hItems, rfl⟩ := Option.map_eq_some_iff.mp h
  have hSound : Cursor.Sound ⟨Token.first source.toList, 0, Text.byteLength source.toList⟩ :=
    ⟨Token.solid_first _, Nat.zero_le _⟩
  have hReads := (placesTrees_items _ _ hSound _ _ hItems).markDirectives
  have hEach : ∀ t ∈ markDirectives statements, t.Parsed := fun t ht => (hReads.placed t ht).1
  refine ⟨⟨⟨fun t ht => ?_, hReads.apart.filter _⟩, fun t ht => ?_⟩, fun t ht => ?_⟩
  · exact (hEach t (List.mem_of_mem_filter ht)).wellPlaced
  · exact (hEach t (List.mem_of_mem_filter ht)).walkOrdered
  · exact (hEach t (List.mem_of_mem_filter ht)).closesCalls

/-- As a parser, the grammar accepts just what it parses. -/
theorem parser_program? (source : String) : (parser source).program? = parse? source := by
  rw [parser]
  cases parse? source <;> rfl

/-- The parser of this library gives trees as parsers are expected to. -/
theorem scriptParsed_of_program? {source : String} {program : List Tree}
    (h : (parser source).program? = some program) : ScriptParsed program :=
  scriptParsed_of_parse? (parser_program? source ▸ h)

/-- A script that is parsed is laid out in order. -/
theorem scriptOrdered_of_parse? {source : String} {program : List Tree}
    (h : parse? source = some program) : ScriptOrdered program :=
  (scriptParsed_of_parse? h).toScriptOrdered

/-- The nodes of a script that is parsed stand apart from each other and inside their parents. -/
theorem scriptPlaced_of_parse? {source : String} {program : List Tree}
    (h : parse? source = some program) : ScriptPlaced program :=
  (scriptOrdered_of_parse? h).toScriptPlaced

end ComponentAnalysis.Script
