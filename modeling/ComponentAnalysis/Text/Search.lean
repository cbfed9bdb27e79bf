import ComponentAnalysis.Text.Bytes

/-! The first occurrence of a text in another. -/
namespace ComponentAnalysis.Text

/-- What stands before and after the first occurrence of `needle`, if there is one. -/
def cut? (needle : List Char) : List Char → Option (List Char × List Char)
  | [] => if needle.isEmpty then some ([], []) else none
  | c :: rest =>
    if needle.isPrefixOf (c :: rest) then some ([], (c :: rest).drop needle.length)
    else (cut? needle rest).map fun (before, after) => (c :: before, after)

/-- A cut only takes the needle out. -/
theorem cut?_eq_append {needle text before after : List Char}
    (h : cut? needle text = some (before, after)) : text = before ++ needle ++ after := by
  induction text generalizing before with
  | nil =>
    simp only [cut?] at h
    split at h
    · rename_i he
      simp_all
    · simp at h
  | cons c rest ih =>
    simp only [cut?] at h
    split at h
    · rename_i hp
      obtain ⟨tail, htail⟩ := List.isPrefixOf_iff_prefix.1 hp
      simp only [Option.some.injEq, Prod.mk.injEq] at h
      obtain ⟨rfl, rfl⟩ := h
      simp [← htail]
    · obtain ⟨⟨b, a⟩, hba, heq⟩ := Option.map_eq_some_iff.1 h
      simp only [Prod.mk.injEq] at heq
      obtain ⟨rfl, rfl⟩ := heq
      simpa using ih hba

/-- The rest after a cut is no longer than the text less the needle. -/
theorem cut?_length {needle text before after : List Char}
    (h : cut? needle text = some (before, after)) :
    after.length + needle.length ≤ text.length := by
  have := congrArg List.length (cut?_eq_append h)
  simp at this
  omega

end ComponentAnalysis.Text
