import ComponentAnalysis.Script.Functions
import ComponentAnalysis.Proofs.Script.Types

/-! What the parsers of functions and classes read, if every goal of the grammar reads the tree that
it gives. -/
namespace ComponentAnalysis.Script

open ScriptParser

/-- Directives stand for the statements that they were read as. -/
theorem Reads.markDirectives {moved : Bool} {c c' : Cursor} {ts : List Tree}
    (h : Reads moved c ts c') : Reads moved c (markDirectives ts) c' := by
  apply h.replace
  clear h
  fun_induction Script.markDirectives ts with
  | case1 span value inner rest ih =>
      refine .cons ⟨rfl, fun hCovers hParsed => ?_⟩ ih
      have hApart := hParsed.wellPlaced.placed.apart rfl
      exact Tree.Parsed.node hCovers hParsed.allPlaced (fun _ => hApart) hParsed.leads (by simp)
  | case2 ts => exact List.forall₂_same.mpr fun t _ => Tree.StandsFor.refl t

theorem passes_skipMemberModifiers : Passes (fun _ => false) skipMemberModifiers := by
  intro c hc
  unfold skipMemberModifiers
  refine (passes_many ?_).skip (Reads.refl hc) fun found c' h => ?_
  · intro c hc
    simp only [gives_token, gives_following]
    split
    · exact gives_advance.mpr (gives_pure (Reads.refl hc).advance)
    · exact gives_pure (Reads.refl hc)
  · exact (passes_eat "*").skip h fun _ c' h => gives_pure h

/-- Items between commas are read in order. -/
theorem places_commaSeparated {item : ScriptParser Tree} (hItem : PlacesTree item) :
    Places (fun _ => true) (fun ts => ts) (commaSeparated item) := by
  intro c hc
  unfold commaSeparated
  refine hItem.step (Reads.refl hc) fun first c' h => ?_
  exact (placesTrees_manyBehind (passes_eat ",") hItem).step h fun others c' h => gives_pure h

/-- A tree and others are read behind their mark, if the mark is there. -/
theorem gives_clause {before : Bool} {c₀ c : Cursor} {ts : List Tree} {β : Type}
    {p : ScriptParser Bool} {moved : Bool → Bool} {item : ScriptParser Tree}
    {others : ScriptParser (List Tree)} {f : List Tree → ScriptParser β} {Q : β → Cursor → Prop}
    (hp : Passes moved p) (hItem : PlacesTree item) (hOthers : PlacesTrees others)
    (h : Reads before c₀ ts c)
    (hf : ∀ us c', Reads before c₀ (ts ++ us) c' → Gives (f us) c' Q) :
    Gives (p >>= fun found => if found = true then
      item >>= fun t => others >>= fun us => pure (t :: us) >>= f else pure [] >>= f) c Q := by
  refine hp.skip h fun found c' h => ?_
  split
  · refine hItem.step h fun t c' h => ?_
    refine hOthers.step h fun us c' h => hf (t :: us) c' ?_
    rw [List.append_assoc] at h
    exact h.relax
  · exact hf [] c' (by rwa [List.append_nil])

variable {parse : Grammar} (hParse : ∀ goal, PlacesTree (parse goal))

include hParse

/-- The body of a function is one tree over its statements. -/
theorem placesTree_functionBody : PlacesTree (functionBody parse) := by
  intro c hc
  simp only [functionBody, gives_here]
  refine (passes_expect "\x7b").move (Reads.refl hc) fun _ c' h => ?_
  refine (placesTrees_repeatUntil (hParse _) "\x7d").move h fun statements c' h => ?_
  exact gives_finish h.markDirectives _ rfl

/-- The function of a method starts at its parameters. -/
theorem placesTree_methodFunction : PlacesTree (methodFunction parse) := by
  intro c hc
  simp only [methodFunction, gives_here]
  refine (places_callShape hParse).move (Reads.refl hc) fun shape c' h => ?_
  rw [gives_isNext]
  refine gives_either (placesTree_functionBody hParse) h fun body c' h => ?_
  exact gives_finish h _ rfl

/-- A function is one tree from its keyword to the end of its body, or of its signature if it has no
body. -/
theorem gives_functionFrom {before : Bool} {c₀ c : Cursor} (h : Reads before c₀ [] c)
    (form : FunctionForm) (needsName : Bool) :
    GivesTree (functionFrom parse c₀.token.start form needsName) c₀ c := by
  simp only [functionFrom]
  refine (passes_expectWord "function").move h fun _ c' h => ?_
  refine (passes_eat "*").skip h fun _ c' h => ?_
  rw [gives_token]
  refine gives_either placesTree_bindingName h fun name c' h => ?_
  refine (places_callShape hParse).move h fun shape c' h => ?_
  rw [gives_isNext]
  split
  · refine (placesTree_functionBody hParse).step h fun body c' h => ?_
    exact gives_finish h _ rfl
  · refine passes_semicolon.skip h fun _ c' h => ?_
    exact gives_finish (by rwa [List.append_nil]) _ rfl

/-- A member may be an empty one, without a tree. -/
theorem placesTrees_classMember : PlacesTrees (classMember parse) := by
  intro c hc
  unfold classMember
  refine (passes_eat ";").branch (Reads.refl hc) (fun c' h => gives_pure h.weaken) fun c' h => ?_
  refine Gives.mono ?_ fun t c'' h' => h.trans h'
  have hRefl := Reads.refl h.sound
  rw [gives_here]
  refine (placesTrees_decorators hParse).step hRefl fun decorators c' h => ?_
  simp only [gives_isNextWord, gives_following]
  split
  · rw [gives_advance]
    refine (passes_expect "\x7b").move h.advance fun _ c' h => ?_
    refine (placesTrees_repeatUntil (hParse _) "\x7d").move h fun statements c' h => ?_
    -- A static block has no decorators, so the tree leaves out those that were read.
    exact gives_finish_step (h.sublist (List.sublist_append_right _ _)) rfl fun block h =>
      gives_pure h.weaken
  · refine passes_skipMemberModifiers.skip h fun needsMethod c' h => ?_
    refine passes_atIndexSignature.skip h fun _ c' h => ?_
    split
    · refine gives_return ?_
      exact (gives_indexSignature hParse (h.sublist (List.nil_sublist _))).mono fun t c' h =>
        h.weaken
    · refine (placesTree_propertyKey hParse).step h fun key c' h => ?_
      refine (passes_eat "?").skip h fun _ c' h => ?_
      refine gives_when (passes_eat "!") h fun c' h => ?_
      simp only [gives_isNext]
      split
      · refine (placesTree_methodFunction hParse).step h fun function c' h => ?_
        refine gives_when passes_semicolon h fun c' h => ?_
        exact gives_finish_step (by simpa using h) rfl fun method h => gives_pure h.weaken
      · refine gives_ensure fun _ => ?_
        refine (placesTrees_ascription? hParse).step h fun ascription c' h => ?_
        refine (placesTrees_initializer? hParse true).step h fun value c' h => ?_
        refine passes_semicolon.skip h fun _ c' h => ?_
        exact gives_finish_step (by simpa using h) rfl fun field h => gives_pure h.weaken

theorem placesTree_heritage : PlacesTree (heritage parse) := by
  intro c hc
  simp only [heritage, gives_here]
  refine (hParse _).step (Reads.refl hc) fun base c' h => ?_
  exact (placesTrees_typeArguments? hParse).step h fun types c' h => gives_finish h _ rfl

/-- A class is one tree with its decorators before all else. -/
theorem gives_classFrom {c₀ c : Cursor} {before : Bool} {kind : Kind} {decorators : List Tree}
    (h : Reads before c₀ decorators c) (hKind : kind.isCall = false) :
    GivesTree (classFrom parse c₀.token.start kind decorators) c₀ c := by
  unfold classFrom
  refine (passes_expectWord "class").move h fun _ c' h => ?_
  simp only [gives_token]
  refine gives_either placesTree_bindingName h fun name c' h => ?_
  refine (placesTrees_typeParameters? hParse).step h fun generics c' h => ?_
  refine gives_clause (passes_eatWord _) (hParse _) (placesTrees_typeArguments? hParse) h
    fun base c' h => ?_
  refine (passes_eatWord _).skip h fun _ c' h => ?_
  refine gives_list (places_commaSeparated (placesTree_heritage hParse)) h
    fun interfaces c' h => ?_
  rw [gives_here]
  refine (passes_expect "\x7b").move (Reads.refl h.sound) fun _ c' hBody => ?_
  refine (places_repeatUntil (placesTrees_classMember hParse) "\x7d").move hBody
    fun members c' hBody => ?_
  rw [List.flatMap_id'] at hBody
  refine gives_finish_step hBody rfl fun body hBody => ?_
  exact gives_finish (h.trans hBody) _ hKind

end ComponentAnalysis.Script
