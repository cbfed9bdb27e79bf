import ComponentAnalysis.Proofs.Script.Reads

/-! What the steps of parsers and their combinations read. A parser is followed from the cursor at
which a tree starts to each later one, with all trees that it has read since. -/
namespace ComponentAnalysis.Script

/-- A punctuator has some text, so the parser moves on past it. -/
theorem leastLength_of_isPunctuator {token : Token} {text : String}
    (h : ScriptParser.isPunctuator token text = true) : 0 < token.lexeme.leastLength := by
  have hLexeme : token.lexeme = .punctuator text := eq_of_beq h
  rw [hLexeme]
  exact Nat.zero_lt_one

/-- So has a word. -/
theorem leastLength_of_isWord {token : Token} {text : String}
    (h : ScriptParser.isWord token text = true) : 0 < token.lexeme.leastLength := by
  have hLexeme : token.lexeme = .word text false := eq_of_beq h
  rw [hLexeme]
  exact Nat.zero_lt_one

namespace ScriptParser

variable {α β : Type}

/-- Whenever a parser succeeds at a cursor, its value and the cursor after it are as stated. -/
def Gives (p : ScriptParser α) (c : Cursor) (Q : α → Cursor → Prop) : Prop :=
  ∀ a c', p c = some (a, c') → Q a c'

/-- At a later cursor, a parser gives a tree over all that was read since an earlier one. -/
abbrev GivesTree (p : ScriptParser Tree) (c₀ c : Cursor) : Prop :=
  Gives p c fun t c' => Reads true c₀ [t] c'

/-- At a later cursor, a parser may give a tree over all that was read since an earlier one. -/
abbrev GivesOption (p : ScriptParser (Option Tree)) (c₀ c : Cursor) : Prop :=
  Gives p c fun t c' => Reads t.isSome c₀ t.toList c'

/-- A parser reads the trees of its value. -/
def Places (moved : α → Bool) (trees : α → List Tree) (p : ScriptParser α) : Prop :=
  ∀ c, c.Sound → Gives p c fun a c' => Reads (moved a) c (trees a) c'

/-- A parser reads the tree that it gives, and some text. -/
abbrev PlacesTree (p : ScriptParser Tree) : Prop := Places (fun _ => true) (fun t => [t]) p

/-- A parser reads the trees that it gives. -/
abbrev PlacesTrees (p : ScriptParser (List Tree)) : Prop := Places (fun _ => false) (fun ts => ts) p

/-- A parser reads the tree that it may give. -/
abbrev PlacesStep (p : ScriptParser (Option Tree)) : Prop := Places (fun _ => false) Option.toList p

/-- A parser reads no trees. -/
abbrev Passes (moved : α → Bool) (p : ScriptParser α) : Prop := Places moved (fun _ => []) p

section

variable {p : ScriptParser α} {f : α → ScriptParser β} {c c₀ : Cursor} {Q : β → Cursor → Prop}
  {ts : List Tree}

/-- Two parsers in sequence are followed one after the other. -/
theorem Gives.bind (h : Gives p c fun a c' => Gives (f a) c' Q) : Gives (p >>= f) c Q := by
  intro b c'' hSome
  obtain ⟨⟨a, c'⟩, hFirst, hSecond⟩ := Option.bind_eq_some_iff.mp hSome
  exact h a c' hFirst b c'' hSecond

/-- A parser gives whatever follows from what it gives. -/
theorem Gives.mono {R : β → Cursor → Prop} {q : ScriptParser β} (h : Gives q c R)
    (hMono : ∀ b c', R b c' → Q b c') : Gives q c Q :=
  fun b c' hSome => hMono b c' (h b c' hSome)

/-- What a parser gives may be stated in two parts. -/
theorem Gives.and {R : α → Cursor → Prop} {S : α → Cursor → Prop} (hR : Gives p c R)
    (hS : Gives p c S) : Gives p c fun a c' => R a c' ∧ S a c' :=
  fun a c' hSome => ⟨hR a c' hSome, hS a c' hSome⟩

theorem gives_pure {b : β} (h : Q b c) : Gives (pure b) c Q := by
  intro _ _ hSome
  cases hSome
  exact h

/-- A parser that fails gives anything. -/
theorem gives_failure : Gives failure c Q := by
  intro _ _ hSome
  cases hSome

theorem gives_return {g : α → β} (h : Gives p c fun a c' => Q (g a) c') :
    Gives (p >>= fun a => pure (g a)) c Q :=
  Gives.bind (h.mono fun _ _ hQ => gives_pure hQ)

/-- Either branch has to give what is stated, under its condition. -/
theorem gives_if {condition : Prop} [Decidable condition] {p q : ScriptParser β}
    (hp : condition → Gives p c Q) (hq : ¬condition → Gives q c Q) :
    Gives (if condition then p else q) c Q := by
  split
  · exact hp ‹_›
  · exact hq ‹_›

@[simp] theorem gives_token {f : Token → ScriptParser β} :
    Gives (token >>= f) c Q ↔ Gives (f c.token) c Q := Iff.rfl

@[simp] theorem gives_following {f : Token → ScriptParser β} :
    Gives (following >>= f) c Q ↔ Gives (f c.token.next) c Q := Iff.rfl

@[simp] theorem gives_here {f : Nat → ScriptParser β} :
    Gives (here >>= f) c Q ↔ Gives (f c.token.start) c Q := Iff.rfl

@[simp] theorem gives_isNext {text : String} {f : Bool → ScriptParser β} :
    Gives (isNext text >>= f) c Q ↔ Gives (f (isPunctuator c.token text)) c Q := Iff.rfl

@[simp] theorem gives_isNextWord {text : String} {f : Bool → ScriptParser β} :
    Gives (isNextWord text >>= f) c Q ↔ Gives (f (isWord c.token text)) c Q := Iff.rfl

@[simp] theorem gives_get {f : Cursor → ScriptParser β} :
    Gives (get >>= f) c Q ↔ Gives (f c) c Q := Iff.rfl

@[simp] theorem gives_advance {f : Unit → ScriptParser β} :
    Gives (advance >>= f) c Q ↔ Gives (f ()) c.advanced Q := Iff.rfl

@[simp] theorem gives_replaceToken {token : Token} {f : Unit → ScriptParser β} :
    Gives (replaceToken token >>= f) c Q ↔ Gives (f ()) { c with token } Q := Iff.rfl

/-- A parser may go on from another cursor. -/
theorem gives_set {p : ScriptParser β} {c' : Cursor} (h : Gives p c' Q) :
    Gives (set c' >>= fun _ => p) c Q := h

theorem gives_ensure_last {condition : Bool} {R : Unit → Cursor → Prop}
    (h : condition = true → R () c) : Gives (ensure condition) c R := by
  cases condition with
  | true => exact gives_pure (h rfl)
  | false => exact gives_failure

/-- Behind a condition that is ensured, it holds. -/
theorem gives_ensure {condition : Bool} {f : Unit → ScriptParser β}
    (h : condition = true → Gives (f ()) c Q) : Gives (ensure condition >>= f) c Q :=
  Gives.bind (gives_ensure_last h)

/-- A punctuator that is eaten is the next token. -/
theorem gives_eat {text : String} {f : Bool → ScriptParser β}
    (hFound : isPunctuator c.token text = true → Gives (f true) c.advanced Q)
    (hAbsent : Gives (f false) c Q) : Gives (eat text >>= f) c Q := by
  unfold eat
  apply Gives.bind
  rw [gives_isNext]
  refine gives_if (fun hText => ?_) fun _ => gives_pure hAbsent
  exact gives_advance.mpr (gives_pure (hFound hText))

/-- A punctuator that is expected is the next token. -/
theorem gives_expect {text : String} {f : Unit → ScriptParser β}
    (h : isPunctuator c.token text = true → Gives (f ()) c.advanced Q) :
    Gives (expect text >>= f) c Q := by
  unfold expect
  apply Gives.bind
  refine gives_eat (fun hText => gives_ensure_last fun _ => h hText) ?_
  exact gives_ensure_last fun hFound => Bool.noConfusion hFound

/-- A node is finished over all trees that were read since its start. Calls are left out, as their
trees have to end before they do. -/
theorem gives_finish (h : Reads true c₀ ts c) (kind : Kind) (hKind : kind.isCall = false) :
    GivesTree (finish kind c₀.token.start ts) c₀ c := by
  intro _ _ hSome
  cases hSome
  exact h.node kind h.placed (fun _ => h.apart) h.leads (absurd · (Kind.ne_call hKind))

/-- To finish a node and go on is to go on with one tree in place of all its children. -/
theorem gives_finish_step {kind : Kind} {f : Tree → ScriptParser β} (h : Reads true c₀ ts c)
    (hKind : kind.isCall = false) (hf : ∀ t, Reads true c₀ [t] c → Gives (f t) c Q) :
    Gives (finish kind c₀.token.start ts >>= f) c Q := by
  apply Gives.bind
  intro _ _ hSome
  cases hSome
  exact hf _ (h.node kind h.placed (fun _ => h.apart) h.leads (absurd · (Kind.ne_call hKind)))

/-- A call has parts and ends behind them, with a mark of its own. -/
theorem gives_finish_call (h : Reads true c₀ ts c)
    (hEnd : ts ≠ [] ∧ ∀ t ∈ ts, t.span.stop < c.lastStop) :
    GivesTree (finish .call c₀.token.start ts) c₀ c := by
  intro _ _ hSome
  cases hSome
  exact h.node .call h.placed (fun _ => h.apart) h.leads fun _ => hEnd

/-- A node of a kind that does not order its children may have any placed trees below it that keep
walks in order. -/
theorem gives_finish_of_placed {us : List Tree} {kind : Kind} (h : Reads true c₀ ts c)
    (hPlaced : Tree.AllPlaced ⟨c₀.token.start, c.lastStop⟩ us)
    (hWalk : us.Pairwise Tree.Leads) (hKind : kind.ordersChildren = false) :
    GivesTree (finish kind c₀.token.start us) c₀ c := by
  intro _ _ hSome
  cases hSome
  refine h.node kind hPlaced (fun hOrders => ?_) hWalk fun hCall => ?_
  · rw [hKind] at hOrders
    cases hOrders
  · rw [hCall] at hKind
    cases hKind

/-- A finished node has the given children. -/
theorem gives_finish_children {kind : Kind} {start : Nat} {us : List Tree} :
    Gives (finish kind start us) c fun t _ => t.children = us := by
  intro _ _ hSome
  cases hSome
  rfl

/-- A token with some text may be read as a leaf. -/
theorem gives_leaf {lexeme : Lexeme} (hc : c.Sound) (hLexeme : c.token.lexeme = lexeme)
    (hText : 0 < lexeme.leastLength) (kind : Kind) (hKind : kind.isCall = false) :
    GivesTree (leaf kind) c c := by
  simp only [leaf, gives_here, gives_advance]
  exact gives_finish ((Reads.refl hc).advance_moved (by rwa [hLexeme])) kind hKind

/-- A parser that may fail gives its value, or nothing at the same cursor. -/
theorem gives_attempt_last {R : Option α → Cursor → Prop}
    (hSome : Gives p c fun a c' => R (some a) c') (hNone : R none c) : Gives (attempt p) c R := by
  intro a c' hFirst
  unfold attempt at hFirst
  split at hFirst
  · rename_i b after hGiven
    obtain ⟨rfl, rfl⟩ := Prod.mk.inj (Option.some.inj hFirst)
    exact hSome b after hGiven
  · obtain ⟨rfl, rfl⟩ := Prod.mk.inj (Option.some.inj hFirst)
    exact hNone

/-- Both outcomes of an attempt have to lead on. -/
theorem gives_attempt {f : Option α → ScriptParser β}
    (hSome : Gives p c fun a c' => Gives (f (some a)) c' Q) (hNone : Gives (f none) c Q) :
    Gives (attempt p >>= f) c Q :=
  Gives.bind (gives_attempt_last hSome hNone)

/-- What a step keeps holds of the value and the cursor at the end of a repetition. -/
theorem gives_iterate {step : α → ScriptParser (Option α)} {I : α → Cursor → Prop}
    (hStep : ∀ a c, I a c → Gives (step a) c fun b c' => I (b.getD a) c') {a : α} {c : Cursor}
    (h : I a c) : Gives (iterate step a) c I := by
  intro b c' hSome
  fun_induction iterate step a c with
  | case1 => cases hSome
  | case2 a c after hNone =>
      obtain ⟨rfl, rfl⟩ := Prod.mk.inj (Option.some.inj hSome)
      exact hStep a c h none after hNone
  | case3 a c next after hNext _ ih => exact ih (hStep a c h (some next) after hNext) hSome
  | case4 a c next after hNext =>
      obtain ⟨rfl, rfl⟩ := Prod.mk.inj (Option.some.inj hSome)
      exact hStep a c h (some next) after hNext

end

/-! One parser after another. -/

section

variable {p : ScriptParser α} {f : α → ScriptParser β} {c c₀ : Cursor} {Q : β → Cursor → Prop}
  {before : Bool} {ts : List Tree} {moved : α → Bool} {trees : α → List Tree}

/-- What a parser reads is added to what was read before it. -/
theorem Places.step (hp : Places moved trees p) (h : Reads before c₀ ts c)
    (hf : ∀ a c', Reads (before || moved a) c₀ (ts ++ trees a) c' → Gives (f a) c' Q) :
    Gives (p >>= f) c Q :=
  Gives.bind ((hp c h.sound).mono fun a c' h' => hf a c' (h.trans h'))

/-- The same of a parser that always reads some text. -/
theorem Places.move (hp : Places (fun _ => true) trees p) (h : Reads before c₀ ts c)
    (hf : ∀ a c', Reads true c₀ (ts ++ trees a) c' → Gives (f a) c' Q) : Gives (p >>= f) c Q := by
  refine Places.step hp h fun a c' h' => hf a c' ?_
  rwa [Bool.or_true] at h'

/-- Leave out what a parser reads. -/
theorem Places.skip (hp : Places moved trees p) (h : Reads before c₀ ts c)
    (hf : ∀ a c', Reads before c₀ ts c' → Gives (f a) c' Q) : Gives (p >>= f) c Q :=
  Gives.bind ((hp c h.sound).mono fun a c' h' => hf a c' (h.skip h'))

/-- The same of a parser of one tree. -/
theorem PlacesTree.step {p : ScriptParser Tree} {f : Tree → ScriptParser β} (hp : PlacesTree p)
    (h : Reads before c₀ ts c) (hf : ∀ t c', Reads true c₀ (ts ++ [t]) c' → Gives (f t) c' Q) :
    Gives (p >>= f) c Q :=
  Places.move hp h hf

/-- Go on with what is known of a tree beside its place. -/
theorem PlacesTree.stepWith {p : ScriptParser Tree} {f : Tree → ScriptParser β} {R : Tree → Prop}
    (hp : PlacesTree p) (hR : Gives p c fun t _ => R t) (h : Reads before c₀ ts c)
    (hf : ∀ t c', R t → Reads true c₀ (ts ++ [t]) c' → Gives (f t) c' Q) : Gives (p >>= f) c Q := by
  intro b c'' hSome
  obtain ⟨⟨t, c'⟩, hFirst, hSecond⟩ := Option.bind_eq_some_iff.mp hSome
  have hRead := h.trans (hp c h.sound t c' hFirst)
  rw [Bool.or_true] at hRead
  exact hf t c' (hR t c' hFirst) hRead b c'' hSecond

/-- Nothing has to follow a parser of one tree. -/
theorem PlacesTree.last {p : ScriptParser Tree} (hp : PlacesTree p) (h : Reads before c₀ [] c) :
    GivesTree p c₀ c := by
  refine (hp c h.sound).mono fun t c' h' => ?_
  have hAll := h.trans h'
  rwa [Bool.or_true] at hAll

/-- The same of a parser of several trees, of which there may be none. -/
theorem PlacesTrees.step {p : ScriptParser (List Tree)} {f : List Tree → ScriptParser β}
    (hp : PlacesTrees p) (h : Reads before c₀ ts c)
    (hf : ∀ us c', Reads before c₀ (ts ++ us) c' → Gives (f us) c' Q) : Gives (p >>= f) c Q := by
  refine Places.step hp h fun us c' h' => hf us c' ?_
  rwa [Bool.or_false] at h'

/-- Punctuation is passed over without a tree. -/
theorem Passes.move (hp : Passes (fun _ => true) p) (h : Reads before c₀ ts c)
    (hf : ∀ a c', Reads true c₀ ts c' → Gives (f a) c' Q) : Gives (p >>= f) c Q := by
  refine Places.move hp h fun a c' h' => hf a c' ?_
  rwa [List.append_nil] at h'

/-- Do one thing behind something that is there, and another without it. -/
theorem Passes.branch {p : ScriptParser Bool} {yes no : ScriptParser β} (hp : Passes id p)
    (h : Reads before c₀ ts c) (hYes : ∀ c', Reads true c₀ ts c' → Gives yes c' Q)
    (hNo : ∀ c', Reads before c₀ ts c' → Gives no c' Q) :
    Gives (p >>= fun found => if found = true then yes else no) c Q := by
  refine Places.step hp h fun found c' h' => ?_
  rw [List.append_nil] at h'
  cases found with
  | true =>
      rw [id_eq, Bool.or_true] at h'
      exact hYes c' h'
  | false =>
      rw [id_eq, Bool.or_false] at h'
      exact hNo c' h'

/-- Go past something under a condition. -/
theorem gives_when {condition : Prop} [Decidable condition] {rest : ScriptParser β}
    (hp : Passes moved p) (h : Reads before c₀ ts c)
    (hRest : ∀ c', Reads before c₀ ts c' → Gives rest c' Q) :
    Gives (if condition then p >>= fun _ => rest else rest) c Q :=
  gives_if (fun _ => hp.skip h fun _ c' h' => hRest c' h') fun _ => hRest c h

/-- One tree or another is read. -/
theorem gives_oneOf {condition : Prop} [Decidable condition] {p q : ScriptParser Tree}
    {f : Tree → ScriptParser β} (hp : PlacesTree p) (hq : PlacesTree q) (h : Reads before c₀ ts c)
    (hf : ∀ t c', Reads true c₀ (ts ++ [t]) c' → Gives (f t) c' Q) :
    Gives (if condition then p >>= f else q >>= f) c Q :=
  gives_if (fun _ => hp.step h hf) fun _ => hq.step h hf

section

variable {condition : Prop} [Decidable condition] {item : ScriptParser Tree}
  {f : List Tree → ScriptParser β}

/-- Some trees may be read, or none. -/
theorem gives_list {moved : List Tree → Bool} {items : ScriptParser (List Tree)}
    (hItems : Places moved (fun ts => ts) items) (h : Reads before c₀ ts c)
    (hf : ∀ us c', Reads before c₀ (ts ++ us) c' → Gives (f us) c' Q) :
    Gives (if condition then items >>= f else pure [] >>= f) c Q := by
  refine gives_if (fun _ => ?_) fun _ => hf [] c (by rwa [List.append_nil])
  refine hItems.step h fun us c' h' => hf us c' ?_
  cases before with
  | true => exact h'
  | false => exact h'.weaken

/-- A tree may be read, or none. -/
theorem gives_either (hItem : PlacesTree item) (h : Reads before c₀ ts c)
    (hf : ∀ us c', Reads before c₀ (ts ++ us) c' → Gives (f us) c' Q) :
    Gives (if condition then item >>= fun t => pure [t] >>= f else pure [] >>= f) c Q := by
  refine gives_if (fun _ => ?_) fun _ => hf [] c (by rwa [List.append_nil])
  exact hItem.step h fun t c' h' => hf [t] c' h'.relax

/-- Nothing may be read, or a tree. -/
theorem gives_neither (hItem : PlacesTree item) (h : Reads before c₀ ts c)
    (hf : ∀ us c', Reads before c₀ (ts ++ us) c' → Gives (f us) c' Q) :
    Gives (if condition then pure [] >>= f else item >>= fun t => pure [t] >>= f) c Q := by
  refine gives_if (fun _ => hf [] c (by rwa [List.append_nil])) fun _ => ?_
  exact hItem.step h fun t c' h' => hf [t] c' h'.relax

/-- A tree is read behind its mark, if the mark is there. -/
theorem gives_behind {mark : ScriptParser Bool} {moved : Bool → Bool} (hMark : Passes moved mark)
    (hItem : PlacesTree item) (h : Reads before c₀ ts c)
    (hf : ∀ us c', Reads before c₀ (ts ++ us) c' → Gives (f us) c' Q) :
    Gives (mark >>= fun found => if found = true then item >>= fun t => pure [t] >>= f
      else pure [] >>= f) c Q :=
  hMark.skip h fun _ _ h' => gives_either hItem h' hf

end

end

theorem passes_advance : Passes (fun _ => false) advance :=
  fun _ hc => gives_advance.mpr (gives_pure (Reads.refl hc).advance)

theorem passes_eat (text : String) : Passes id (eat text) := by
  intro c hc
  simp only [eat, gives_isNext]
  refine gives_if (fun hText => ?_) fun _ => gives_pure (Reads.refl hc)
  rw [gives_advance]
  exact gives_pure ((Reads.refl hc).advance_moved (leastLength_of_isPunctuator hText))

theorem passes_eatWord (text : String) : Passes id (eatWord text) := by
  intro c hc
  simp only [eatWord, gives_isNextWord]
  refine gives_if (fun hText => ?_) fun _ => gives_pure (Reads.refl hc)
  rw [gives_advance]
  exact gives_pure ((Reads.refl hc).advance_moved (leastLength_of_isWord hText))

/-- A mark that has to be there. -/
theorem passes_ensure {mark : ScriptParser Bool} (hMark : Passes id mark) :
    Passes (fun _ => true) (do ensure (← mark)) := by
  intro c hc
  refine Places.step hMark (Reads.refl hc) fun found c' h => ?_
  apply gives_ensure_last
  rintro rfl
  exact h

theorem passes_expect (text : String) : Passes (fun _ => true) (expect text) :=
  passes_ensure (passes_eat text)

theorem passes_expectWord (text : String) : Passes (fun _ => true) (expectWord text) :=
  passes_ensure (passes_eatWord text)

/-- A semicolon may be left out, so nothing is read for certain. -/
theorem passes_semicolon : Passes (fun _ => false) semicolon := by
  intro c hc
  unfold semicolon
  refine (passes_eat ";").branch (Reads.refl hc) (fun c' h => gives_pure h.weaken) fun c' h => ?_
  rw [gives_token]
  exact gives_ensure_last fun _ => h

/-- Looking ahead reads nothing, whatever the parser inside does. -/
theorem passes_lookAhead (p : ScriptParser α) : Passes (fun _ => false) (lookAhead p) := by
  intro c hc a c' hSome
  obtain ⟨⟨b, after⟩, -, hEq⟩ := Option.map_eq_some_iff.mp hSome
  obtain ⟨rfl, rfl⟩ := Prod.mk.inj hEq
  exact Reads.refl hc

/-- An attempt reads what its parser reads, or nothing. -/
theorem passes_attempt {moved : α → Bool} {p : ScriptParser α} (hp : Passes moved p) :
    Passes (fun _ => false) (attempt p) := by
  intro c hc
  exact gives_attempt_last ((hp c hc).mono fun _ _ h => h.weaken) (Reads.refl hc)

/-- The second of two parsers starts at the same cursor as the first. -/
theorem gives_orElse {p q : ScriptParser α} {c : Cursor} {Q : α → Cursor → Prop}
    (hp : Gives p c Q) (hq : Gives q c Q) : Gives (p <|> q) c Q := by
  intro a c' hSome
  have hEither : (p c <|> q c) = some (a, c') := hSome
  cases hFirst : p c with
  | none =>
      rw [hFirst] at hEither
      exact hq a c' hEither
  | some first =>
      rw [hFirst] at hEither
      cases hEither
      exact hp a c' hFirst

/-- Two parsers that read in the same way may be given as alternatives. -/
theorem places_orElse {moved : α → Bool} {trees : α → List Tree} {p q : ScriptParser α}
    (hp : Places moved trees p) (hq : Places moved trees q) : Places moved trees (p <|> q) :=
  fun c hc => gives_orElse (hp c hc) (hq c hc)

/-! Repetitions. -/

/-- A repetition reads the trees of all its items. It ends because it stops at the first item that
reads no text. -/
theorem places_many {trees : α → List Tree} {p : ScriptParser (Option α)}
    (hp : Places (fun _ => false) (fun a => a.elim [] trees) p) :
    Places (fun _ => false) (fun as => as.flatMap trees) (many p) := by
  intro c hc as c' hSome
  fun_induction many p c generalizing as c' with
  | case1 => cases hSome
  | case2 c after hNone =>
      obtain ⟨rfl, rfl⟩ := Prod.mk.inj (Option.some.inj hSome)
      exact hp c hc none after hNone
  | case3 c a after hNext _ ih =>
      obtain ⟨⟨rest, last⟩, hRest, hEq⟩ := Option.map_eq_some_iff.mp hSome
      obtain ⟨rfl, rfl⟩ := Prod.mk.inj hEq
      have hHead := hp c hc (some a) after hNext
      exact (hHead.trans (ih hHead.sound rest _ hRest)).weaken
  | case4 c a after hNext =>
      obtain ⟨rfl, rfl⟩ := Prod.mk.inj (Option.some.inj hSome)
      have hHead : Reads false c (trees a) after := hp c hc (some a) after hNext
      simpa only [List.flatMap_singleton] using hHead

/-- A repetition of punctuation reads no trees. -/
theorem passes_many {p : ScriptParser (Option α)} (hp : Passes (fun _ => false) p) :
    Passes (fun _ => false) (many p) := by
  have hNone : Places (fun _ => false) (fun a => a.elim [] fun _ => []) p := by
    intro c hc
    refine (hp c hc).mono fun a c' h => ?_
    cases a with
    | none => exact h
    | some a => exact h
  simpa only [List.flatMap_eq_nil_iff.mpr fun _ _ => rfl] using places_many hNone

/-- A repetition of trees reads all of them, in order. -/
theorem placesTrees_many {p : ScriptParser (Option Tree)} (hp : PlacesStep p) :
    PlacesTrees (many p) := by
  have hOne : Places (fun _ => false) (fun t => t.elim [] fun t => [t]) p := by
    intro c hc
    refine (hp c hc).mono fun t c' h => ?_
    cases t with
    | none => exact h
    | some t => exact h
  simpa only [List.flatMap_singleton'] using places_many hOne

/-- Trees that stand behind a mark each. -/
theorem placesTrees_manyBehind {mark : ScriptParser Bool} (hMark : Passes id mark)
    {item : ScriptParser Tree} (hItem : PlacesTree item) :
    PlacesTrees (many do
      if ← mark then return some (← item)
      return none) := by
  apply placesTrees_many
  intro c hc
  refine hMark.branch (Reads.refl hc) (fun c' h => ?_) fun c' h => gives_pure h
  exact gives_return ((hItem c' h.sound).mono fun t c'' h' => (h.trans h').weaken)

theorem places_listUntil_of_step {trees : α → List Tree} {item : ScriptParser α} {close : String}
    (hStep : Places (fun _ => false) (fun a => a.elim [] trees) (do
      if ← isNext close then return none
      let a ← item
      if !(← isNext close) then expect ","
      return some a)) :
    Places (fun _ => true) (fun as => as.flatMap trees) (listUntil close item) := by
  intro c hc
  unfold listUntil
  refine (places_many hStep).step (Reads.refl hc) fun as c' h => ?_
  exact (passes_expect close).move h fun _ c'' h' => gives_pure h'

/-- One item of a list, with the comma behind it. -/
theorem places_listItem {moved : α → Bool} {trees : α → List Tree} {item : ScriptParser α}
    (hItem : Places moved trees item) (close : String) :
    Places (fun _ => false) (fun a => a.elim [] trees) (do
      if ← isNext close then return none
      let a ← item
      if !(← isNext close) then expect ","
      return some a) := by
  intro c hc
  rw [gives_isNext]
  refine gives_if (fun _ => gives_pure (Reads.refl hc)) fun _ => ?_
  refine hItem.step (Reads.refl hc) fun a c' h => ?_
  simp only [gives_isNext]
  exact gives_when (passes_expect ",") h fun c'' h' => gives_pure h'.weaken

/-- A list in brackets reads the trees of its items and the closing bracket. -/
theorem places_listUntil {moved : α → Bool} {trees : α → List Tree} {item : ScriptParser α}
    (hItem : Places moved trees item) (close : String) :
    Places (fun _ => true) (fun as => as.flatMap trees) (listUntil close item) :=
  places_listUntil_of_step (places_listItem hItem close)

/-- A list of trees in brackets gives its trees. -/
theorem placesTrees_listUntil {item : ScriptParser Tree} (hItem : PlacesTree item)
    (close : String) : Places (fun _ => true) (fun ts => ts) (listUntil close item) := by
  simpa only [List.flatMap_singleton'] using places_listUntil hItem close

/-- The mark that closes a list stands behind its items. -/
theorem gives_listUntil_enclosed {item : ScriptParser Tree} (hItem : PlacesTree item)
    (close : String) {c : Cursor} (hc : c.Sound) :
    Gives (listUntil close item) c fun ts c' => ∀ t ∈ ts, t.span.stop < c'.lastStop := by
  unfold listUntil
  refine (places_many (places_listItem hItem close)).step (Reads.refl hc) fun ts c' h => ?_
  rw [List.nil_append, List.flatMap_singleton'] at h
  refine gives_expect fun hClose => gives_pure fun t ht => ?_
  have hStop : t.span.stop ≤ c'.token.start :=
    Nat.le_trans (h.placed t ht).2.2 h.sound.behind
  exact Nat.lt_of_le_of_lt hStop
    (h.sound.solid.start_lt_stop (leastLength_of_isPunctuator hClose))

/-- The same of items without commas between them. -/
theorem places_repeatUntil {moved : α → Bool} {trees : α → List Tree} {item : ScriptParser α}
    (hItem : Places moved trees item) (close : String) :
    Places (fun _ => true) (fun as => as.flatMap trees) (repeatUntil close item) := by
  have hStep : Places (fun _ => false) (fun a => a.elim [] trees) (do
      if ← isNext close then return none
      return some (← item)) := by
    intro c hc
    rw [gives_isNext]
    refine gives_if (fun _ => gives_pure (Reads.refl hc)) fun _ => ?_
    exact hItem.step (Reads.refl hc) fun a c' h => gives_pure h.weaken
  intro c hc
  unfold repeatUntil
  refine (places_many hStep).step (Reads.refl hc) fun as c' h => ?_
  exact (passes_expect close).move h fun _ c'' h' => gives_pure h'

/-- The same of trees without commas between them. -/
theorem placesTrees_repeatUntil {item : ScriptParser Tree} (hItem : PlacesTree item)
    (close : String) : Places (fun _ => true) (fun ts => ts) (repeatUntil close item) := by
  simpa only [List.flatMap_singleton'] using places_repeatUntil hItem close

end ScriptParser

end ComponentAnalysis.Script
