import Sm83Asm.Proofs.Bytes

set_option autoImplicit false

/-!
# Text and its bytes

How the characters of a text and the bytes of its UTF-8 encoding are counted against each other. A
character of ASCII is one byte below 128 and every other character is all bytes from 128 on, so a
run of ASCII characters is as long in bytes as in characters.
-/

namespace Sm83Asm.Text

theorem utf8_ofList_append (cs ds : List Char) :
    utf8 (String.ofList (cs ++ ds)) = utf8 (String.ofList cs) ++ utf8 (String.ofList ds) := by
  simp [utf8, String.ofList_append]

theorem length_utf8_ofList (cs : List Char) :
    (utf8 (String.ofList cs)).length = byteLength cs := by
  induction cs with
  | nil => rfl
  | cons c cs ih =>
    have hc : (utf8 (String.ofList [c])).length = c.utf8Size := by
      simp [Bytes.length_utf8]
    rw [← List.singleton_append, utf8_ofList_append, List.length_append, ih, hc]
    rfl

theorem byteLength_append (cs ds : List Char) :
    byteLength (cs ++ ds) = byteLength cs + byteLength ds := by
  simp only [← length_utf8_ofList, utf8_ofList_append, List.length_append]

theorem byteLength_pos {cs : List Char} (h : cs ≠ []) : 0 < byteLength cs := by
  cases cs with
  | nil => exact absurd rfl h
  | cons c cs =>
    have := c.utf8Size_pos
    simp only [byteLength]
    omega

/-- Of two beginnings of a text, the longer one has more bytes. -/
theorem byteLength_take_lt {cs : List Char} {m n : Nat} (hmn : m < n) (hn : n ≤ cs.length) :
    byteLength (cs.take m) < byteLength (cs.take n) := by
  obtain ⟨k, rfl⟩ := Nat.exists_eq_add_of_lt hmn
  have hrest : (cs.drop m).take (k + 1) ≠ [] := by
    apply List.ne_nil_of_length_pos
    rw [List.length_take, List.length_drop]
    omega
  have hpos := byteLength_pos hrest
  rw [Nat.add_assoc, List.take_add, byteLength_append]
  omega

/-- The bytes of a beginning of a text end where one of its characters does. -/
theorem charIndex?_byteLength_take (cs : List Char) (n : Nat) :
    charIndex? cs (byteLength (cs.take n)) = some (min n cs.length) := by
  induction cs generalizing n with
  | nil => simp [byteLength, charIndex?]
  | cons c cs ih =>
    cases n with
    | zero => simp [byteLength, charIndex?]
    | succ n =>
      have hpos := c.utf8Size_pos
      obtain ⟨k, hk⟩ : ∃ k, c.utf8Size + byteLength (cs.take n) = k + 1 :=
        ⟨c.utf8Size + byteLength (cs.take n) - 1, by omega⟩
      have hrest : k + 1 - c.utf8Size = byteLength (cs.take n) := by omega
      have hle : c.utf8Size ≤ k + 1 := by omega
      rw [List.take_succ_cons, byteLength, hk, charIndex?, if_pos hle, hrest, ih]
      simp [Nat.succ_min_succ]

end Sm83Asm.Text
