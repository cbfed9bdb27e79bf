/-! Texts measured in UTF-8 bytes. Every offset of the library is such a byte offset; a text is cut
only between two characters. -/
namespace ComponentAnalysis.Text

def byteLength : List Char → Nat
  | [] => 0
  | c :: rest => c.utf8Size + byteLength rest

/-- The text from byte `n` on, if byte `n` is a character boundary. -/
def dropBytes? : Nat → List Char → Option (List Char)
  | 0, text => some text
  | _ + 1, [] => none
  | n + 1, c :: rest =>
    if c.utf8Size ≤ n + 1 then dropBytes? (n + 1 - c.utf8Size) rest else none

/-- The first `n` bytes of a text, if byte `n` is a character boundary. -/
def takeBytes? : Nat → List Char → Option (List Char)
  | 0, _ => some []
  | _ + 1, [] => none
  | n + 1, c :: rest =>
    if c.utf8Size ≤ n + 1 then (takeBytes? (n + 1 - c.utf8Size) rest).map (c :: ·) else none

/-- The bytes `start` to `stop` of a text, if both ends are character boundaries in order. -/
def slice? (start stop : Nat) (text : List Char) : Option (List Char) :=
  if start ≤ stop then (dropBytes? start text).bind (takeBytes? (stop - start)) else none

theorem byteLength_append (a b : List Char) :
    byteLength (a ++ b) = byteLength a + byteLength b := by
  induction a with
  | nil => simp [byteLength]
  | cons c a ih => simp [byteLength, ih, Nat.add_assoc]

/-- Cutting off exactly the bytes of a first part leaves the second part. -/
theorem dropBytes?_byteLength (a b : List Char) : dropBytes? (byteLength a) (a ++ b) = some b := by
  induction a with
  | nil => simp [byteLength, dropBytes?]
  | cons c a ih =>
    have hc : 0 < c.utf8Size := c.utf8Size_pos
    obtain ⟨n, hn⟩ : ∃ n, c.utf8Size + byteLength a = n + 1 :=
      ⟨_, (Nat.sub_add_cancel (by omega)).symm⟩
    have hle : c.utf8Size ≤ n + 1 := by omega
    have hsub : n + 1 - c.utf8Size = byteLength a := by omega
    simp [byteLength, hn, dropBytes?, hle, hsub, ih]

/-- A cut of the text is a suffix whose missing part has the given length. -/
theorem dropBytes?_eq_some {n : Nat} {text rest : List Char} (h : dropBytes? n text = some rest) :
    ∃ front, text = front ++ rest ∧ byteLength front = n := by
  fun_induction dropBytes? n text with
  | case1 text => exact ⟨[], by simpa using h, rfl⟩
  | case2 n => simp at h
  | case3 n c text hle ih =>
    obtain ⟨front, hfront, hlen⟩ := ih h
    exact ⟨c :: front, by simp [hfront], by simp [byteLength, hlen]; omega⟩
  | case4 n c text hle => simp at h

end ComponentAnalysis.Text
