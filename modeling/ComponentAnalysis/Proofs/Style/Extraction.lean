import ComponentAnalysis.Proofs.Style.Scan
import ComponentAnalysis.Proofs.Table
import ComponentAnalysis.Proofs.Text.Trim
import Mathlib.Data.List.Forall2

/-! Which expressions a style takes from its component: those of its uses without the blanks and
then the quotes around them, each once. A variable is kept for each of them. -/
namespace ComponentAnalysis

/-- The members of a list, each once, in the order in which they first stand in it. -/
structure ListsOnce {α : Type} [DecidableEq α] (all once : List α) : Prop where
  nodup : once.Nodup
  mem_iff : ∀ x, x ∈ once ↔ x ∈ all
  order : once.Pairwise fun x y => all.idxOf x < all.idxOf y

section

variable {α : Type} [DecidableEq α]

theorem idxOf_lt_of_filter {a x y : α} {l : List α} (hx : x ≠ a) (hy : y ≠ a)
    (h : (l.filter fun b => !b == a).idxOf x < (l.filter fun b => !b == a).idxOf y) :
    l.idxOf x < l.idxOf y := by
  induction l with
  | nil => exact h
  | cons b l ih => grind

/-- A list that starts with a member lists it first, and then the others as without that member. -/
theorem ListsOnce.cons {a : α} {all once : List α}
    (h : ListsOnce (all.filter fun b => !b == a) once) : ListsOnce (a :: all) (a :: once) := by
  have hOther : ∀ x ∈ once, x ≠ a := by
    intro x hx
    simpa using (List.mem_filter.mp ((h.mem_iff x).mp hx)).2
  constructor
  · exact List.nodup_cons.mpr ⟨fun hMem => hOther a hMem rfl, h.nodup⟩
  · intro x
    rw [List.mem_cons, List.mem_cons, h.mem_iff, List.mem_filter]
    by_cases hx : x = a <;> simp [hx]
  · refine List.pairwise_cons.mpr ⟨fun y hy => ?_, h.order.imp_of_mem ?_⟩
    · rw [List.idxOf_cons_self, List.idxOf_cons_ne _ (Ne.symm (hOther y hy))]
      exact Nat.succ_pos _
    · intro x y hx hy hLess
      rw [List.idxOf_cons_ne _ (Ne.symm (hOther x hx)),
        List.idxOf_cons_ne _ (Ne.symm (hOther y hy))]
      exact Nat.succ_lt_succ (idxOf_lt_of_filter (hOther x hx) (hOther y hy) hLess)

/-- Repetitions are dropped behind the first of each. -/
theorem listsOnce_eraseDups (all : List α) : ListsOnce all all.eraseDups := by
  induction hLength : all.length using Nat.strong_induction_on generalizing all with
  | _ length ih =>
      cases all with
      | nil => exact ⟨List.nodup_nil, fun _ => Iff.rfl, List.Pairwise.nil⟩
      | cons a all =>
          have hShorter : (all.filter fun b => !b == a).length < length := by
            rw [← hLength]
            exact Nat.lt_succ_of_le (List.length_filter_le _ _)
          rw [List.eraseDups_cons]
          exact (ih _ hShorter _ rfl).cons

end

namespace StyleVariables

/-- What is left of the text between the parentheses without the blanks and then the quotes around
it. -/
def Cleans (raw expression : List Char) : Prop :=
  ∃ bare, Text.Trims Text.isBlank raw bare ∧ Text.Trims isQuote bare expression

/-- Cleaning takes away blanks first and quotes then. -/
theorem cleans_clean (raw : List Char) : Cleans raw (clean raw) :=
  ⟨_, Text.trims_trim _ _, Text.trims_trim _ _⟩

/-- The expressions of a style are read off the uses of which it is composed. -/
structure IsReadOff (css : String) (parts : Composition) : Prop where
  unique : ∀ other : Composition, other.text = css.toList ↔ other = parts
  expressions : ∃ cleaned : List (List Char), List.Forall₂ Cleans parts.raws cleaned ∧
    ListsOnce ((cleaned.filter fun expression => expression ≠ []).map String.ofList)
      (expressions css)
  scan : scan? css.toList 0 = some parts.raws
  keys : ∀ component, (bindings component css).keys = StyleVariables.expressions css
  values : ∀ component, ∀ expression ∈ StyleVariables.expressions css,
    (bindings component css).find? expression =
      some (Digest.styleVariable component expression)

/-- A style has each of its expressions once, in the order of their first uses. -/
theorem listsOnce_expressions (css : String) :
    ListsOnce ((((rawUses css.toList).map clean).filter fun expression => expression ≠ []).map
      String.ofList) (expressions css) := by
  have hSame : expressions css =
      ((((rawUses css.toList).map clean).filter fun expression => expression ≠ []).map
        String.ofList).eraseDups := by
    rw [expressions]
    congr 2
    apply List.filter_congr
    intro expression _
    cases expression <;> rfl
  rw [hSame]
  exact listsOnce_eraseDups _

/-- Each expression has its variable. -/
theorem entries_bindings (component css : String) :
    (bindings component css).entries =
      (expressions css).map fun e => (e, Digest.styleVariable component e) := by
  have hNames : ((expressions css).map fun e => (e, Digest.styleVariable component e)).map
      Prod.fst = expressions css := by
    rw [List.map_map]
    exact List.map_id _
  apply Table.entries_ofList
  rw [hNames]
  exact (listsOnce_expressions css).nodup

/-- Every style is composed in one way, and its expressions are read off it. -/
theorem exists_isReadOff (css : String) : ∃ parts : Composition, IsReadOff css parts := by
  obtain ⟨parts, hText⟩ := Composition.exists_text_eq css.toList
  have hRaws : rawUses css.toList = parts.raws := by rw [← hText, parts.rawUses_text]
  refine ⟨parts, ?_⟩
  exact
    { unique := fun other => by rw [← hText, Composition.text_injective.eq_iff]
      expressions := by
        refine ⟨parts.raws.map clean, ?_, hRaws ▸ listsOnce_expressions css⟩
        rw [List.forall₂_map_right_iff, List.forall₂_same]
        exact fun raw _ => cleans_clean raw
      scan := by rw [scan?_eq_rawUses, hRaws]
      keys := fun component => by
        rw [Table.keys, entries_bindings, List.map_map]
        exact List.map_id _
      values := fun component expression hMem => by
        rw [Table.find?, entries_bindings]
        exact List.lookup_graph _ hMem }

example : expressions "a: v-bind(b); c: v-bind( 'd.é' ) v-bind(\"b\") v-bind() v-bind(" =
    ["b", "d.é"] := by decide +kernel

end StyleVariables

end ComponentAnalysis
