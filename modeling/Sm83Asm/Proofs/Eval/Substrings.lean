import Mathlib
import Sm83Asm.Proofs.Link.Forward
import Sm83Asm.Proofs.Token.Stored

set_option autoImplicit false

/-!
# Functions of strings

`STRIN` finds a string in another one and counts characters from one, `STRSUB` cuts out characters
by such a count, `STRLEN` counts them and `STRCAT` joins strings. A string is stored as bytes and
searched byte by byte; where a string that is not empty is found, a character begins, because no
other byte of a character looks like its first one.

Main statements: `positionOf?_eq`, searching bytes gives the position in characters, and
`string_functions_consistent` for calls of the four functions.
-/

namespace Sm83Asm

open Text (byteLength)

/-! ## The first occurrence -/

namespace Text

variable {needle cs : List Char}

/-- A text is found where it occurs first. -/
theorem find?_eq_some {n : Nat} (h : find? needle cs = some n) :
    n ≤ cs.length ∧ needle <+: cs.drop n ∧ ∀ m < n, ¬ needle <+: cs.drop m := by
  induction cs generalizing n with
  | nil =>
    rw [find?] at h
    split at h
    · rename_i hempty
      obtain rfl := Option.some.inj h
      rw [List.isEmpty_iff.1 hempty]
      exact ⟨Nat.le_refl 0, List.nil_prefix, by simp⟩
    · exact absurd h (by simp)
  | cons c cs ih =>
    rw [find?] at h
    split at h
    · rename_i hprefix
      obtain rfl := Option.some.inj h
      exact ⟨Nat.zero_le _, List.isPrefixOf_iff_prefix.1 hprefix, by simp⟩
    · rename_i hprefix
      obtain ⟨k, hk, rfl⟩ := Option.map_eq_some_iff.1 h
      obtain ⟨hle, hfound, hfirst⟩ := ih hk
      refine ⟨Nat.succ_le_succ hle, hfound, fun m hm hoccurs => ?_⟩
      cases m with
      | zero => exact hprefix (List.isPrefixOf_iff_prefix.2 hoccurs)
      | succ m => exact hfirst m (Nat.lt_of_succ_lt_succ hm) hoccurs

/-- A text is not found where it does not occur. -/
theorem find?_eq_none_iff : find? needle cs = none ↔ ¬ needle <:+: cs := by
  induction cs with
  | nil => simp [find?]
  | cons c cs ih =>
    rw [find?, List.infix_cons_iff, not_or, ← ih]
    split
    · rename_i hprefix
      simp [List.isPrefixOf_iff_prefix.1 hprefix]
    · rename_i hprefix
      have hnot : ¬ needle <+: c :: cs := fun h => hprefix (List.isPrefixOf_iff_prefix.2 h)
      simp [hnot]

end Text

/-! ## Searching bytes -/

namespace Stored

theorem bytes_append (cs ds : List Char) : bytes (cs ++ ds) = bytes cs ++ bytes ds :=
  Text.utf8_ofList_append cs ds

theorem bytes_eq (cs : List Char) : bytes cs = cs.utf8Encode.data.toList := by
  simp [bytes, Text.utf8]

/-- The text whose bytes lead the bytes of another text leads that text. -/
theorem prefix_of_bytes {needle cs : List Char} (h : bytes needle <+: bytes cs) : needle <+: cs := by
  obtain ⟨rest, hrest⟩ := h
  apply List.isPrefix_of_utf8Encode_append_eq_utf8Encode ⟨rest.toArray⟩
  apply ByteArray.ext
  apply Array.toList_inj.1
  rw [bytes_eq, bytes_eq] at hrest
  simpa using hrest

theorem prefix_bytes {needle cs : List Char} (h : needle <+: cs) : bytes needle <+: bytes cs := by
  obtain ⟨rest, rfl⟩ := h
  rw [bytes_append]
  exact List.prefix_append _ _

/-- Of the bytes of a character, the first one alone can begin a character. -/
theorem isUTF8FirstByte_iff {c : Char} {n : Nat} {b : UInt8}
    (h : (String.utf8EncodeChar c)[n]? = some b) : b.IsUTF8FirstByte ↔ n = 0 := by
  obtain ⟨hn, rfl⟩ := List.getElem?_eq_some_iff.1 h
  exact UInt8.isUTF8FirstByte_getElem_utf8EncodeChar

/-- The first byte of a text that is not empty begins a character. -/
theorem exists_bytes_eq_cons {cs : List Char} (hne : cs ≠ []) :
    ∃ b bs, bytes cs = b :: bs ∧ b.IsUTF8FirstByte := by
  obtain ⟨c, rest, rfl⟩ := List.exists_cons_of_ne_nil hne
  obtain ⟨b, bs, hencode⟩ := List.exists_cons_of_ne_nil (String.utf8EncodeChar_ne_nil (c := c))
  refine ⟨b, bs ++ bytes rest, by rw [bytes_cons, hencode, List.cons_append], ?_⟩
  have hfirst : (String.utf8EncodeChar c)[0]? = some b := by rw [hencode]; rfl
  exact (isUTF8FirstByte_iff hfirst).2 rfl

/-- Where the bytes of a text stand among those of another one, a character begins. -/
theorem exists_take_of_prefix_drop {needle : List Char} (hne : needle ≠ []) {cs : List Char}
    {offset : Nat} (h : bytes needle <+: (bytes cs).drop offset) :
    ∃ n, offset = byteLength (cs.take n) ∧ needle <+: cs.drop n := by
  induction cs generalizing offset with
  | nil =>
    obtain ⟨b, bs, hb, -⟩ := exists_bytes_eq_cons hne
    have hnil : bytes [] = [] := rfl
    rw [hb, hnil, List.drop_nil] at h
    exact absurd (List.prefix_nil.1 h) (by simp)
  | cons c cs ih =>
    have hlength : (String.utf8EncodeChar c).length = c.utf8Size := String.length_utf8EncodeChar c
    rcases Nat.eq_zero_or_pos offset with rfl | hpos
    · exact ⟨0, rfl, prefix_of_bytes h⟩
    · rw [bytes_cons] at h
      by_cases hlt : offset < c.utf8Size
      · obtain ⟨b, bs, hb, hfirst⟩ := exists_bytes_eq_cons hne
        obtain ⟨rest, hrest⟩ := h
        have hbyte : (String.utf8EncodeChar c)[offset]? = some b := by
          have hhead := congrArg List.head? hrest
          rw [hb, List.head?_drop, List.getElem?_append_left (hlength ▸ hlt)] at hhead
          exact hhead.symm
        exact absurd ((isUTF8FirstByte_iff hbyte).1 hfirst) (Nat.ne_of_gt hpos)
      · rw [List.drop_append, hlength, List.drop_of_length_le (by omega), List.nil_append] at h
        obtain ⟨n, hn, hprefix⟩ := ih h
        exact ⟨n + 1, by rw [List.take_succ_cons, byteLength]; omega, hprefix⟩

/-- The position from one of the first occurrence of a text, found among bytes, and zero if there is
none. The characters in front of it are counted in a slice, which may fail. -/
def positionOf? (haystack needle : List Char) : Option Int32 :=
  match (bytes haystack).tails.findIdx? fun rest => (bytes needle).isPrefixOf rest with
  | none => some 0
  | some offset => (upTo? haystack offset).map fun front => Int32.ofNat front.length + 1

/-- Bytes are found at the first place where the characters occur. -/
theorem findIdx?_tails_bytes {needle haystack : List Char} {n : Nat}
    (h : Text.find? needle haystack = some n) :
    ((bytes haystack).tails.findIdx? fun rest => (bytes needle).isPrefixOf rest) =
      some (byteLength (haystack.take n)) := by
  obtain ⟨hle, hoccurs, hfirst⟩ := Text.find?_eq_some h
  have hlength : (bytes haystack).length = byteLength haystack := Text.length_utf8_ofList _
  have hbefore : byteLength (haystack.take n) ≤ byteLength haystack := by
    conv_rhs => rw [← List.take_append_drop n haystack, Text.byteLength_append]
    exact Nat.le_add_right _ _
  refine List.findIdx?_eq_some_iff_getElem.2 ⟨?_, ?_, fun offset hlt => ?_⟩
  · rw [List.length_tails]
    omega
  · rw [List.getElem_tails, drop_bytes]
    exact List.isPrefixOf_iff_prefix.2 (prefix_bytes hoccurs)
  · rw [List.getElem_tails, List.isPrefixOf_iff_prefix]
    intro hprefix
    have hne : needle ≠ [] := by
      rintro rfl
      cases n with
      | zero => exact absurd hlt (by simp [byteLength])
      | succ n => exact hfirst 0 (Nat.succ_pos n) List.nil_prefix
    obtain ⟨m, rfl, hm⟩ := exists_take_of_prefix_drop hne hprefix
    -- An occurrence further in front would have been found.
    have hmn : m < n := by
      by_contra hge
      obtain ⟨k, rfl⟩ := Nat.exists_eq_add_of_le (Nat.le_of_not_lt hge)
      rw [List.take_add, Text.byteLength_append] at hlt
      omega
    exact hfirst m hmn hm

theorem findIdx?_tails_bytes_eq_none {needle haystack : List Char}
    (h : Text.find? needle haystack = none) :
    ((bytes haystack).tails.findIdx? fun rest => (bytes needle).isPrefixOf rest) = none := by
  have hnot := Text.find?_eq_none_iff.1 h
  refine List.findIdx?_eq_none_iff.2 fun rest hrest => ?_
  obtain ⟨front, hfront⟩ := (List.mem_tails _ _).1 hrest
  rw [Bool.eq_false_iff, ne_eq, List.isPrefixOf_iff_prefix]
  intro hprefix
  have hne : needle ≠ [] := by
    rintro rfl
    exact hnot List.nil_infix
  rw [show rest = (bytes haystack).drop front.length by rw [← hfront, List.drop_left]] at hprefix
  obtain ⟨n, -, hn⟩ := exists_take_of_prefix_drop hne hprefix
  exact hnot (hn.isInfix.trans (List.drop_suffix n haystack).isInfix)

theorem positionOf?_eq (haystack needle : String) :
    positionOf? haystack.toList needle.toList = some (positionOf haystack needle) := by
  unfold positionOf? positionOf
  cases h : Text.find? needle.toList haystack.toList with
  | none => rw [findIdx?_tails_bytes_eq_none h]
  | some n =>
    obtain ⟨hle, -⟩ := Text.find?_eq_some h
    rw [findIdx?_tails_bytes h]
    dsimp only
    rw [upTo?_take, Option.map_some, List.length_take_of_le hle]

end Stored

/-! ## Positions and parts -/

theorem toInt_ofNat_add_one {n : Nat} (h : n + 1 < 2 ^ 31) : (Int32.ofNat n + 1).toInt = n + 1 := by
  have hsum : Int32.ofNat n + 1 = Int32.ofNat (n + 1) := (Int32.ofNat_add n 1).symm
  rw [hsum, Int32.toInt_ofNat_of_lt h, Int.natCast_succ]

/-- A position is zero, or it is one more than the number of characters in front of the first
occurrence. -/
theorem positionOf_cases {s t : String} (hs : s.length < 2 ^ 31 - 1) :
    positionOf s t = 0 ∧ ¬ t.toList <:+: s.toList ∨
      ∃ n : Nat, (positionOf s t).toInt = n + 1 ∧ t.toList <+: s.toList.drop n ∧
        ∀ m < n, ¬ t.toList <+: s.toList.drop m := by
  unfold positionOf
  cases h : Text.find? t.toList s.toList with
  | none => exact .inl ⟨rfl, Text.find?_eq_none_iff.1 h⟩
  | some n =>
    obtain ⟨hle, hoccurs, hfirst⟩ := Text.find?_eq_some h
    rw [String.length_toList] at hle
    exact .inr ⟨n, toInt_ofNat_add_one (by omega), hoccurs, hfirst⟩

theorem positionOf_eq_zero_iff {s t : String} (hs : s.length < 2 ^ 31 - 1) :
    positionOf s t = 0 ↔ ¬ t.toList <:+: s.toList := by
  rcases positionOf_cases (t := t) hs with ⟨hzero, hnot⟩ | ⟨n, hn, hoccurs, -⟩
  · exact ⟨fun _ => hnot, fun _ => hzero⟩
  · constructor
    · intro hzero
      rw [hzero] at hn
      exact absurd hn (by rw [Int32.toInt_zero]; omega)
    · intro hnot
      exact absurd (hoccurs.isInfix.trans (List.drop_suffix n s.toList).isInfix) hnot

/-- The part of a length from a position on is a text of that length exactly where it occurs. -/
theorem subText_eq_iff {s t : String} {j length : Int32} (hlength : length.toInt = t.length) :
    subText s j (some length) = t ↔ t.toList <+: s.toList.drop (skipOf j) := by
  have htake : t.toList.length = length.toInt.toNat := by
    rw [hlength, String.length_toList, Int.toNat_natCast]
  have hpart : subText s j (some length) =
      String.ofList ((s.toList.drop (skipOf j)).take length.toInt.toNat) := rfl
  rw [hpart, List.prefix_iff_eq_take, htake]
  constructor
  · intro h
    rw [← h, String.toList_ofList]
  · intro h
    rw [← h, String.ofList_toList]

/-- The position of an occurrence is the least one from which the part of its length is the text. -/
theorem subText_positionOf {s t : String} (hs : s.length < 2 ^ 31 - 1) {length : Int32}
    (hlength : length.toInt = t.length) (h : positionOf s t ≠ 0) :
    1 ≤ positionOf s t ∧ subText s (positionOf s t) (some length) = t ∧
      ∀ j, 1 ≤ j → subText s j (some length) = t → positionOf s t ≤ j := by
  rcases positionOf_cases (t := t) hs with ⟨hzero, -⟩ | ⟨n, hn, hoccurs, hfirst⟩
  · exact absurd hzero h
  · simp only [subText_eq_iff hlength, Int32.le_iff_toInt_le, hn, Int32.toInt_one]
    have hskip : skipOf (positionOf s t) = n := by
      rw [skipOf, hn]
      omega
    refine ⟨by omega, by rwa [hskip], fun j hj hoccursj => ?_⟩
    have hnot : ¬ skipOf j < n := fun hlt => hfirst _ hlt hoccursj
    rw [skipOf] at hnot
    omega

/-- The first characters and those from the next position on are the whole text. -/
theorem subText_append_subText {s : String} {n : Int32} (hn : 0 ≤ n) (hle : n.toInt ≤ s.length)
    (hs : s.length < 2 ^ 31 - 1) : subText s 1 (some n) ++ subText s (n + 1) none = s := by
  rw [Int32.le_iff_toInt_le, Int32.toInt_zero] at hn
  have hnext : (n + 1).toInt = n.toInt + 1 := by
    rw [Int32.toInt_add, Int32.toInt_one]
    exact Int.bmod_eq_of_le (by omega) (by omega)
  have hfront : skipOf 1 = 0 := rfl
  have hback : skipOf (n + 1) = n.toInt.toNat := by
    rw [skipOf, hnext]
    omega
  rw [subText, subText, hfront, hback, List.drop_zero, ← String.ofList_append,
    List.take_append_drop, String.ofList_toList]

/-! ## Calls -/

namespace Scope

theorem length_argumentValues (sc : Scope) (f : Function) (i : Nat) (args : List Expr)
    (r : Random) : (sc.argumentValues f i args r).value.length = args.length := by
  induction args generalizing i r with
  | nil =>
    rw [argumentValues]
    rfl
  | cons e es ih =>
    rw [argumentValues]
    simp only [Act.bind_apply, Act.pure_apply, List.length_cons, ih]

/-- A function makes a value of some values, and so does every call of it, under any spelling of its
name, when its arguments come out as these values. -/
structure Makes (sc : Scope) (f : Function) (values : List Value) (v : Value) : Prop where
  apply (t : Token) : sc.applyFunction t f values = pure v
  call {t : Token} {args : List Expr} {r : Random}
    (hword : Function.ofWord? t.text sc.state.extensions = some f)
    (hargs : (sc.argumentValues f 0 args r).value = values) :
    (sc.value (.call t args) r).value = v

variable (sc : Scope) {f : Function} {values : List Value} {v : Value}

theorem makes_of_apply (harity : f.arity.accepts values.length = true)
    (hlink : f.isLinkTime = false) (halways : f.isAlwaysConstant = false)
    (happly : ∀ t, sc.applyFunction t f values = pure v) : sc.Makes f values v where
  apply := happly
  call {t args r} hword hargs := by
    have hcount : f.arity.accepts args.length = true := by
      rw [← sc.length_argumentValues f 0 args r, hargs]
      exact harity
    rw [value_call_of_ordinary (callee_of_accepts hword hcount) hlink halways, Act.bind_apply,
      hargs, happly]
    rfl

theorem makes_strlen (s : String) :
    sc.Makes .strlen [.text s] (.number (Int32.ofNat s.length)) :=
  sc.makes_of_apply rfl rfl rfl fun _ => rfl

theorem makes_strin (s u : String) :
    sc.Makes .strin [.text s, .text u] (.number (positionOf s u)) :=
  sc.makes_of_apply rfl rfl rfl fun _ => rfl

theorem makes_strsub (s : String) (j n : Int32) :
    sc.Makes .strsub [.text s, .number j, .number n] (.text (subText s j (some n))) :=
  sc.makes_of_apply rfl rfl rfl fun _ => rfl

theorem makes_strsub_rest (s : String) (j : Int32) :
    sc.Makes .strsub [.text s, .number j] (.text (subText s j none)) :=
  sc.makes_of_apply rfl rfl rfl fun _ => rfl

theorem makes_strcat (s u : String) :
    sc.Makes .strcat [.text s, .text u] (.text (s ++ u)) := by
  have hjoin : String.join [s, u] = s ++ u := by simp [String.join]
  rw [← hjoin]
  exact sc.makes_of_apply rfl rfl rfl fun _ => rfl

/-- `STRIN` finds the first position from which `STRSUB` cuts out a text, and gives zero exactly where
the text does not occur; and what `STRSUB` cuts off in front and behind, `STRCAT` joins again. -/
theorem string_functions_consistent {s u : String} (hs : s.length < 2 ^ 31 - 1)
    (hu : u.length < 2 ^ 31 - 1) :
    ∃ k l m : Int32,
      sc.Makes .strlen [.text s] (.number l) ∧ l.toInt = s.length ∧
      sc.Makes .strlen [.text u] (.number m) ∧ m.toInt = u.length ∧
      sc.Makes .strin [.text s, .text u] (.number k) ∧
      Stored.positionOf? s.toList u.toList = some k ∧
      (k = 0 ↔ ¬ u.toList <:+: s.toList) ∧
      (k ≠ 0 → 1 ≤ k ∧ sc.Makes .strsub [.text s, .number k, .number m] (.text u) ∧
        ∀ j, 1 ≤ j → j < k → ∃ part ≠ u,
          sc.Makes .strsub [.text s, .number j, .number m] (.text part)) ∧
      ∀ n, 0 ≤ n → n ≤ l → ∃ front back,
        sc.Makes .strsub [.text s, .number 1, .number n] (.text front) ∧
        sc.Makes .strsub [.text s, .number (n + 1)] (.text back) ∧
        sc.Makes .strcat [.text front, .text back] (.text s) := by
  have hl : (Int32.ofNat s.length).toInt = s.length := Int32.toInt_ofNat_of_lt (by omega)
  have hm : (Int32.ofNat u.length).toInt = u.length := Int32.toInt_ofNat_of_lt (by omega)
  refine ⟨positionOf s u, _, _, sc.makes_strlen s, hl, sc.makes_strlen u, hm, sc.makes_strin s u,
    Stored.positionOf?_eq s u, positionOf_eq_zero_iff hs, fun hk => ?_, fun n hn hle => ?_⟩
  · obtain ⟨hpos, hpart, hleast⟩ := subText_positionOf hs hm hk
    have hfound := sc.makes_strsub s (positionOf s u) (Int32.ofNat u.length)
    rw [hpart] at hfound
    refine ⟨hpos, hfound, fun j hj hlt => ⟨_, fun heq => ?_, sc.makes_strsub s j _⟩⟩
    have hnot := hleast j hj heq
    rw [Int32.le_iff_toInt_le] at hnot
    rw [Int32.lt_iff_toInt_lt] at hlt
    omega
  · rw [Int32.le_iff_toInt_le, hl] at hle
    refine ⟨_, _, sc.makes_strsub s 1 n, sc.makes_strsub_rest s (n + 1), ?_⟩
    have hjoined := sc.makes_strcat (subText s 1 (some n)) (subText s (n + 1) none)
    rwa [subText_append_subText hn hle hs] at hjoined

/-- The text `añ€ñ€`. -/
def sampleHaystack : Expr := .string (sampleToken "\"añ€ñ€\"")

/-- The text `ñ€`. -/
def sampleNeedle : Expr := .string (sampleToken "\"ñ€\"")

theorem string_functions_consistent_multibyte :
    (sampleScope.value (.call (sampleToken "StrIn") [sampleHaystack, sampleNeedle]) default).value =
        .number 2 ∧
      (sampleScope.value (.call (sampleToken "strsub") [sampleHaystack,
          .number (sampleToken "2"), .call (sampleToken "STRLEN") [sampleNeedle]]) default).value =
        .text "ñ€" := by
  obtain ⟨k, l, m, -, -, -, hm, hstrin, hposition, -, hfound, -⟩ :=
    @string_functions_consistent sampleScope "añ€ñ€" "ñ€" (by decide) (by decide)
  have htwo : Stored.positionOf? "añ€ñ€".toList "ñ€".toList = some 2 := by decide +kernel
  obtain rfl : (2 : Int32) = k := Option.some.inj (htwo.symm.trans hposition)
  obtain rfl : (2 : Int32) = m := Int32.toInt_inj.1 hm.symm
  obtain ⟨-, hstrsub, -⟩ := hfound (by decide)
  exact ⟨hstrin.call (by decide +kernel) (by decide +kernel),
    hstrsub.call (by decide +kernel) (by decide +kernel)⟩

end Scope

end Sm83Asm
