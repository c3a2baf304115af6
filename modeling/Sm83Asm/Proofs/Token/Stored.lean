import Mathlib.Data.List.Forall2
import Sm83Asm.Proofs.Text
import Sm83Asm.Proofs.Token.Bounds

set_option autoImplicit false

/-!
# Lexing text as it is stored

A line is stored as the bytes of its UTF-8 encoding and cut by byte offsets. Here is the lexer in
that form: a slice may fail, because it ends inside a character or behind the end of the text, and
so may a loop that does not get on. Its rules count bytes where characters of ASCII are looked for,
and characters where any may come.

Main statements: one lemma for each rule, which says that no slice of it fails and that it takes
the bytes of the characters that the rule takes.
-/

namespace Sm83Asm.Stored

open Text (byteLength)

/-! ## Slices -/

/-- The bytes of a text. -/
def bytes (text : List Char) : List UInt8 := Text.utf8 (String.ofList text)

/-- The text behind an offset. There is none inside a character or behind the end. -/
def from? (text : List Char) (start : Nat) : Option (List Char) :=
  (Text.charIndex? text start).map text.drop

/-- The text in front of an offset. -/
def upTo? (text : List Char) (stop : Nat) : Option (List Char) :=
  (Text.charIndex? text stop).map text.take

/-- The text between two offsets. -/
def between? (text : List Char) (start stop : Nat) : Option (List Char) :=
  if start ≤ stop then (from? text start).bind (upTo? · (stop - start)) else none

/-- Cutting a text behind some of its characters. -/
theorem from?_take (text : List Char) (n : Nat) :
    from? text (byteLength (text.take n)) = some (text.drop n) := by
  rw [from?, Text.charIndex?_byteLength_take, Option.map_some]
  rcases Nat.le_total n text.length with h | h
  · rw [Nat.min_eq_left h]
  · rw [Nat.min_eq_right h, List.drop_length, List.drop_eq_nil_of_le h]

/-- Cutting a text in front of some of its characters. -/
theorem upTo?_take (text : List Char) (n : Nat) :
    upTo? text (byteLength (text.take n)) = some (text.take n) := by
  rw [upTo?, Text.charIndex?_byteLength_take, Option.map_some]
  rcases Nat.le_total n text.length with h | h
  · rw [Nat.min_eq_left h]
  · rw [Nat.min_eq_right h, List.take_length, List.take_of_length_le h]

/-- Cutting some characters out of a text. -/
theorem between?_take (text : List Char) (m n : Nat) :
    between? text (byteLength (text.take m))
        (byteLength (text.take m) + byteLength ((text.drop m).take n)) =
      some ((text.drop m).take n) := by
  rw [between?, if_pos (Nat.le_add_right _ _), from?_take, Option.bind_some,
    Nat.add_sub_cancel_left, upTo?_take]

/-- Cutting off the front of a text leaves what stood behind it. -/
theorem from?_append (front rest : List Char) :
    from? (front ++ rest) (byteLength front) = some rest := by
  have h := from?_take (front ++ rest) front.length
  rwa [List.take_left, List.drop_left] at h

/-- A character begins in front of the end. -/
theorem lt_of_from?_cons {text rest : List Char} {c : Char} {start : Nat}
    (h : from? text start = some (c :: rest)) : start < byteLength text := by
  obtain ⟨n, hn, hdrop⟩ := Option.map_eq_some_iff.1 h
  clear h
  induction text generalizing start n with
  | nil => simp at hdrop
  | cons d text ih =>
    have hd := d.utf8Size_pos
    cases start with
    | zero =>
      rw [byteLength]
      omega
    | succ start =>
      rw [Text.charIndex?] at hn
      split at hn
      · obtain ⟨k, hk, rfl⟩ := Option.map_eq_some_iff.1 hn
        have := ih k hk hdrop
        rw [byteLength]
        omega
      · exact absurd hn (by simp)

/-! ## Bytes of ASCII -/

/-- A test of characters that holds in ASCII only. -/
def Ascii (p : Char → Bool) : Prop := ∀ c, p c = true → c.utf8Size = 1

/-- A test of characters as one of bytes. Bytes from 128 on are parts of longer characters. -/
def asByte (p : Char → Bool) (b : UInt8) : Bool := b < 0x80 && p (Char.ofNat b.toNat)

/-- Number of leading bytes that satisfy a test. -/
def countBytes (p : Char → Bool) (text : List Char) : Nat :=
  ((bytes text).takeWhile (asByte p)).length

theorem bytes_cons (c : Char) (text : List Char) :
    bytes (c :: text) = String.utf8EncodeChar c ++ bytes text := by
  rw [bytes, ← List.singleton_append, Text.utf8_ofList_append, bytes]
  congr 1
  simp [Text.utf8, List.utf8Encode_singleton]

/-- A character of one byte passes a test as a character if it does as a byte. -/
theorem asByte_encode {c : Char} (p : Char → Bool) (h : c.utf8Size = 1) :
    asByte p c.val.toUInt8 = p c := by
  have hc : c.toNat ≤ 127 := by
    simpa [Char.utf8Size_eq_one_iff, UInt32.le_iff_toNat_le] using h
  have hb : c.val.toUInt8.toNat = c.toNat := by
    rw [UInt32.toNat_toUInt8]
    exact Nat.mod_eq_of_lt (Nat.lt_of_le_of_lt hc (by decide))
  have hlt : c.val.toUInt8 < 0x80 := by
    rw [UInt8.lt_iff_toNat_lt, hb]
    exact Nat.lt_succ_of_le hc
  rw [asByte, hb, Char.ofNat_toNat, decide_eq_true hlt, Bool.true_and]

/-- A character beyond ASCII begins with a byte beyond ASCII. -/
theorem exists_encode_eq_cons {c : Char} (h : c.utf8Size ≠ 1) :
    ∃ b bs, String.utf8EncodeChar c = b :: bs ∧ ¬ b < 0x80 := by
  have hor : ∀ a mark : UInt8, ¬ mark < 0x80 → ¬ (a ||| mark) < 0x80 := by
    intro a mark hm
    rw [UInt8.lt_iff_toNat_lt] at hm ⊢
    rw [UInt8.toNat_or]
    have : mark.toNat ≤ a.toNat ||| mark.toNat := Nat.right_le_or
    omega
  rcases c.utf8Size_eq with h1 | h2 | h3 | h4
  · exact absurd h1 h
  · exact ⟨_, _, String.utf8EncodeChar_eq_cons_cons h2, hor _ _ (by decide)⟩
  · exact ⟨_, _, String.utf8EncodeChar_eq_cons_cons_cons h3, hor _ _ (by decide)⟩
  · exact ⟨_, _, String.utf8EncodeChar_eq_cons_cons_cons_cons h4, hor _ _ (by decide)⟩

/-- The first byte of a text satisfies a test when its first character does. -/
theorem any_head?_bytes {p : Char → Bool} (hp : Ascii p) (text : List Char) :
    (bytes text).head?.any (asByte p) = text.head?.any p := by
  cases text with
  | nil => rfl
  | cons c text =>
    rw [bytes_cons]
    by_cases hc : c.utf8Size = 1
    · rw [String.utf8EncodeChar_eq_singleton hc]
      exact asByte_encode p hc
    · obtain ⟨b, bs, henc, hb⟩ := exists_encode_eq_cons hc
      have hno : p c = false := Bool.eq_false_iff.2 fun h => hc (hp c h)
      simp [henc, asByte, hb, hno]

/-- Bytes that pass a test are as many as the characters, for a test that only ASCII passes. -/
theorem countBytes_eq {p : Char → Bool} (hp : Ascii p) (text : List Char) :
    countBytes p text = countWhile p text := by
  unfold countBytes countWhile
  induction text with
  | nil => rfl
  | cons c text ih =>
    rw [bytes_cons]
    by_cases hc : c.utf8Size = 1
    · rw [String.utf8EncodeChar_eq_singleton hc, List.singleton_append]
      cases hpc : p c with
      | false =>
        rw [List.takeWhile_cons_of_neg (by rw [asByte_encode p hc, hpc]; decide),
          List.takeWhile_cons_of_neg (by rw [hpc]; decide), List.length_nil, List.length_nil]
      | true =>
        rw [List.takeWhile_cons_of_pos ((asByte_encode p hc).trans hpc),
          List.takeWhile_cons_of_pos hpc, List.length_cons, List.length_cons, ih]
    · obtain ⟨b, bs, henc, hb⟩ := exists_encode_eq_cons hc
      have hno : p c = false := Bool.eq_false_iff.2 fun h => hc (hp c h)
      simp [henc, asByte, hb, hno]

/-- The characters that are counted are those in front that pass the test. -/
theorem take_countWhile (p : Char → Bool) (text : List Char) :
    text.take (countWhile p text) = text.takeWhile p :=
  (List.prefix_iff_eq_take.1 (List.takeWhile_prefix p)).symm

/-- A run of ASCII is as long in bytes as in characters. -/
theorem byteLength_take_countWhile {p : Char → Bool} (hp : Ascii p) (text : List Char) :
    byteLength (text.take (countWhile p text)) = countWhile p text := by
  rw [take_countWhile, countWhile]
  induction text with
  | nil => rfl
  | cons c text ih =>
    cases hpc : p c with
    | false => simp [hpc, byteLength]
    | true => rw [List.takeWhile_cons_of_pos hpc, byteLength, hp c hpc, ih, List.length_cons,
        Nat.add_comm]

/-- Dropping the bytes of some characters drops these characters. -/
theorem drop_bytes (text : List Char) (n : Nat) :
    (bytes text).drop (byteLength (text.take n)) = bytes (text.drop n) := by
  have hsplit : bytes text = bytes (text.take n) ++ bytes (text.drop n) := by
    rw [bytes, bytes, bytes, ← Text.utf8_ofList_append, List.take_append_drop]
  have hlength : (bytes (text.take n)).length = byteLength (text.take n) :=
    Text.length_utf8_ofList _
  rw [hsplit, List.drop_left' hlength]

/-! ## Rules -/

/-- A rule that reads the text in front of it: the bytes that it takes, none when it does not
match. -/
abbrev Scanner := ScanContext → List Char → Option Nat

/-- Number of word characters at the head of a text. -/
def wordBytes (rest : List Char) : Nat := countBytes Text.isWordChar rest

def space : Scanner := fun _ rest =>
  some (countBytes (fun c => c == ' ' || c == '\t' || c == '\r') rest)

def comment : Scanner := fun _ rest =>
  some (if rest.head? = some ';' then byteLength rest else 0)

def directive : Scanner := fun _ rest =>
  match rest with
  | '#' :: word => match wordBytes word with
    | 0 => some 0
    | n => some (1 + n)
  | _ => some 0

/-- A backslash and a byte. -/
def backslashed (p : Char → Bool) : Scanner := fun _ rest =>
  let first := (bytes rest).head?
  let second := (bytes rest).tail.head?
  some (if first.any (asByte (· == '\\')) && second.any (asByte p) then 2 else 0)

/-- Everything in front of the first character that ends plain text. -/
def plain (d : Delimiter) : Scanner := fun _ rest =>
  some (byteLength (rest.takeWhile fun c => !d.endsText c))

/-- Digits and the underscores between them. -/
def digitBytes (isDigit : Char → Bool) (rest : List Char) : Nat :=
  byteLength (rest.takeWhile fun c => c == '_' || isDigit c)

/-- A mark, which has to be a single byte, and digits. -/
def marked? (isDigit : Char → Bool) (rest : List Char) : Option Nat := do
  let digits ← from? rest 1
  let count := digitBytes isDigit digits
  return if count = 0 then 0 else 1 + count

def decimal? (rest : List Char) : Option Nat := do
  let whole := digitBytes Char.isDigit rest
  match ← from? rest whole with
  | '.' :: tail =>
    let fraction := digitBytes Char.isDigit tail
    return if fraction = 0 then whole else whole + 1 + fraction
  | _ => return whole

def number : Scanner := fun ctx rest =>
  let afterValue := ctx.prev.any TokenKind.endsValue
  match rest.head? with
  | none => some 0
  | some c =>
    if c == '$' then marked? (fun c => (Numeral.digitOf? 16 c).isSome) rest
    else if c == '%' && !afterValue then marked? ctx.options.binaryList.contains rest
    else if c == '&' && !afterValue then marked? (fun c => (Numeral.digitOf? 8 c).isSome) rest
    else if c == Numeral.backQuote then marked? ctx.options.pixelList.contains rest
    else if c.isDigit then decimal? rest
    else some 0

def keyword : Scanner := fun ctx rest => do
  let word ← upTo? rest (wordBytes rest)
  match Keyword.ofWord? (String.ofList word) with
  | some keyword => return if ctx.extensions || !keyword.isExtension then wordBytes rest else 0
  | none => return 0

def opcode : Scanner := fun _ rest =>
  if 0 < wordBytes rest then do
    let word ← upTo? rest (wordBytes rest)
    return if isMnemonic (String.ofList word) then wordBytes rest else 0
  else some 0

/-- The rest of an identifier, from its first character on. -/
def name? (rest : List Char) : Option Nat := do
  let length := countBytes Text.isIdentChar rest
  let name ← upTo? rest length
  let sign := ((bytes rest).drop length).head?.any (asByte fun c => c == '+' || c == '-')
  if Text.sameWord (String.ofList name) "hl" && sign then
    let tail ← from? rest (length + 1)
    return if (Text.trimStart tail).head? == some ']' then length + 1 else length
  else return length

def identifier : Scanner := fun _ rest =>
  match bytes rest with
  | [] => some 0
  | b :: bs =>
    if asByte (· == '@') b && !bs.head?.any (asByte Text.isIdentChar) then some 1
    else if asByte (fun c => c.isAlpha || c == '_' || c == '.') b then name? rest
    else some 0

def operator : Scanner := fun _ rest =>
  if digraphs.any (·.isPrefixOf rest) then some 2
  else some (if (bytes rest).head?.any (asByte operatorChars.contains) then 1 else 0)

/-! ## Rules take whole characters -/

theorem ascii_eq {c : Char} (hc : c.utf8Size = 1) : Ascii (· == c) := by
  intro d hd
  rw [beq_iff_eq.1 hd, hc]

/-- Two tests that only ASCII passes make one. -/
theorem Ascii.or {p q : Char → Bool} (hp : Ascii p) (hq : Ascii q) :
    Ascii fun c => p c || q c := by
  intro c hc
  exact (Bool.or_eq_true_iff.1 hc).elim (hp c) (hq c)

/-- Letters and digits lie in three ranges below 128. -/
theorem ascii_isAlphanum : Ascii Char.isAlphanum := by
  intro c hc
  rw [Char.utf8Size_eq_one_iff, UInt32.le_iff_toNat_le]
  unfold Char.isAlphanum Char.isAlpha Char.isUpper Char.isLower Char.isDigit at hc
  simp [UInt32.le_iff_toNat_le] at hc ⊢
  omega

theorem ascii_isAlpha : Ascii Char.isAlpha := fun c hc =>
  ascii_isAlphanum c (by rw [Char.isAlphanum, hc, Bool.true_or])

theorem ascii_isWordChar : Ascii Text.isWordChar := ascii_isAlphanum.or (ascii_eq rfl)

theorem ascii_isIdentChar : Ascii Text.isIdentChar :=
  ((ascii_isWordChar.or (ascii_eq rfl)).or (ascii_eq rfl)).or (ascii_eq rfl)

theorem ascii_isArgumentName : Ascii isArgumentName := by
  refine Ascii.or (fun c hc => ?_) (ascii_eq rfl)
  have hnine : c.val ≤ '9'.val := of_decide_eq_true (Bool.and_eq_true_iff.1 hc).2
  exact Char.utf8Size_eq_one_iff.2 (UInt32.le_trans hnine (by decide))

theorem ascii_isEscaped : Ascii isEscaped := by
  intro c hc
  simp only [isEscaped, Bool.or_eq_true, beq_iff_eq] at hc
  rcases hc with ((((((((rfl | rfl) | rfl) | rfl) | rfl) | rfl) | rfl) | rfl) | rfl) | rfl
  all_goals rfl

/-- A test for some characters of one byte each. -/
theorem ascii_contains {cs : List Char} (h : cs.all (·.utf8Size == 1) = true) :
    Ascii cs.contains := fun c hc =>
  beq_iff_eq.1 (List.all_eq_true.1 h c (List.contains_iff_mem.1 hc))

/-- The characters of a word are one byte long each. -/
theorem wordBytes_eq (rest : List Char) : wordBytes rest = countWhile Text.isWordChar rest :=
  countBytes_eq ascii_isWordChar rest

/-- What is counted in bytes can be cut off there. -/
theorem upTo?_countWhile {p : Char → Bool} (hp : Ascii p) (rest : List Char) :
    upTo? rest (countWhile p rest) = some (rest.takeWhile p) := by
  rw [← byteLength_take_countWhile hp, upTo?_take, take_countWhile]

/-- White space is as long in bytes as its characters are. -/
theorem space_eq (ctx : ScanContext) (rest : List Char) :
    space ctx rest = some (byteLength (rest.take (spaceLength rest))) := by
  have hp : Ascii fun c => c == ' ' || c == '\t' || c == '\r' :=
    ((ascii_eq rfl).or (ascii_eq rfl)).or (ascii_eq rfl)
  unfold spaceLength
  rw [space, countBytes_eq hp, byteLength_take_countWhile hp]

/-- A comment is as long in bytes as its characters are. -/
theorem comment_eq (ctx : ScanContext) (rest : List Char) :
    comment ctx rest = some (byteLength (rest.take (commentLength rest))) := by
  unfold comment commentLength
  split
  · rename_i h
    obtain ⟨cs, rfl⟩ := List.head?_eq_some_iff.1 h
    simp
  · rename_i h
    split
    · exact absurd rfl h
    · rfl

/-- A directive is as long in bytes as its characters are. -/
theorem directive_eq (ctx : ScanContext) (rest : List Char) :
    directive ctx rest = some (byteLength (rest.take (directiveLength rest))) := by
  unfold directive
  split
  · rename_i word
    have hword := byteLength_take_countWhile ascii_isWordChar word
    rw [wordBytes_eq, directiveLength]
    cases hn : countWhile Text.isWordChar word with
    | zero => rfl
    | succ n =>
      rw [hn] at hword
      simp only [List.take_succ_cons, byteLength] at hword ⊢
      rw [hword]
      rfl
  · rename_i h
    unfold directiveLength
    split
    · exact absurd rfl (h _)
    · rfl

/-- Whether a text begins with a backslash and a character that satisfies a test. -/
def isBackslashed (p : Char → Bool) (rest : List Char) : Bool :=
  rest.head?.any (· == '\\') && rest.tail.head?.any p

/-- A backslash and what it escapes are two bytes. -/
theorem backslashed_eq {p : Char → Bool} (hp : Ascii p) (ctx : ScanContext) (rest : List Char) :
    backslashed p ctx rest = some (if isBackslashed p rest then 2 else 0) := by
  have hfirst := any_head?_bytes (ascii_eq (c := '\\') rfl) rest
  unfold backslashed isBackslashed
  dsimp only
  rw [hfirst]
  cases hc : rest.head?.any (· == '\\') with
  | false => rfl
  | true =>
    obtain ⟨c, hhead, heq⟩ := (Option.any_eq_true _ _).1 hc
    obtain ⟨tail, rfl⟩ := List.head?_eq_some_iff.1 hhead
    obtain rfl := beq_iff_eq.1 heq
    rw [bytes_cons, String.utf8EncodeChar_eq_singleton rfl, List.singleton_append, List.tail_cons,
      any_head?_bytes hp, List.tail_cons]

/-- A backslash in front of a character that passes the test. -/
theorem isBackslashed_iff {p : Char → Bool} {rest : List Char} :
    isBackslashed p rest = true ↔ ∃ c tail, rest = '\\' :: c :: tail ∧ p c = true := by
  constructor
  · intro h
    obtain ⟨hfirst, hsecond⟩ := Bool.and_eq_true_iff.1 h
    obtain ⟨a, ha, heq⟩ := (Option.any_eq_true _ _).1 hfirst
    obtain ⟨c, hc, hpc⟩ := (Option.any_eq_true _ _).1 hsecond
    obtain ⟨tail, rfl⟩ := List.head?_eq_some_iff.1 ha
    obtain ⟨tail, rfl⟩ := List.head?_eq_some_iff.1 hc
    obtain rfl := beq_iff_eq.1 heq
    exact ⟨c, tail, rfl, hpc⟩
  · rintro ⟨c, tail, rfl, hc⟩
    simpa [isBackslashed] using hc

/-- Digits are as long in bytes as their characters are. -/
theorem digitBytes_eq (isDigit : Char → Bool) (rest : List Char) :
    digitBytes isDigit rest = byteLength (rest.take (digitsLength isDigit rest)) := by
  rw [digitBytes, digitsLength, take_countWhile]

/-- There are digits in bytes if there are some in characters. -/
theorem digitBytes_eq_zero_iff (isDigit : Char → Bool) (rest : List Char) :
    digitBytes isDigit rest = 0 ↔ digitsLength isDigit rest = 0 := by
  rw [digitBytes, digitsLength, countWhile, List.length_eq_zero_iff]
  constructor
  · intro h
    by_contra hne
    exact absurd h (Nat.ne_of_gt (Text.byteLength_pos hne))
  · intro h
    rw [h]
    rfl

/-- Digits behind a mark of one byte. -/
theorem marked?_eq (isDigit : Char → Bool) {c : Char} (hc : c.utf8Size = 1) (rest : List Char) :
    marked? isDigit (c :: rest) =
      some (byteLength ((c :: rest).take (markedLength isDigit rest))) := by
  have hrest : from? (c :: rest) 1 = some rest := by
    have h := from?_append [c] rest
    rwa [byteLength, byteLength, hc] at h
  simp only [marked?, markedLength, hrest, Option.bind_eq_bind, Option.bind_some, pure,
    digitBytes_eq_zero_iff]
  cases hn : digitsLength isDigit rest with
  | zero => rfl
  | succ n => simp [digitBytes_eq, hn, byteLength, hc]

/-- Decimal digits, perhaps with a fraction, are as long in bytes as their characters are. -/
theorem decimal?_eq (rest : List Char) :
    decimal? rest = some (byteLength (rest.take (decimalLength rest))) := by
  have hwhole := digitBytes_eq Char.isDigit rest
  have hrest := from?_take rest (digitsLength Char.isDigit rest)
  simp only [decimal?, decimalLength, hwhole, hrest, Option.bind_eq_bind, Option.bind_some, pure,
    digitBytes_eq_zero_iff]
  cases hdrop : rest.drop (digitsLength Char.isDigit rest) with
  | nil => rfl
  | cons c tail =>
    by_cases hc : c = '.'
    · subst hc
      have hfraction := digitBytes_eq Char.isDigit tail
      cases hn : digitsLength Char.isDigit tail with
      | zero => simp [hn]
      | succ n =>
        have htake : rest.take (digitsLength Char.isDigit rest + 1 + (n + 1)) =
            rest.take (digitsLength Char.isDigit rest) ++ '.' :: tail.take (n + 1) := by
          rw [Nat.add_assoc, List.take_add, hdrop, Nat.add_comm 1, List.take_succ_cons]
        simp only [hn, htake, Text.byteLength_append, byteLength, hfraction]
        exact congrArg some (Nat.add_assoc _ _ _)
    · simp [hc]

/-- A number is as long in bytes as its characters are. -/
theorem number_eq (ctx : ScanContext) (rest : List Char) :
    number ctx rest = some (byteLength (rest.take (numberLength ctx rest))) := by
  cases rest with
  | nil => rfl
  | cons c rest =>
    have hmarked : ∀ (mark : Char) (isDigit : Char → Bool), mark.utf8Size = 1 → c = mark →
        marked? isDigit (c :: rest) =
          some (byteLength ((c :: rest).take (markedLength isDigit rest))) := by
      rintro _ isDigit hsize rfl
      exact marked?_eq isDigit hsize rest
    simp only [number, List.head?_cons, numberLength]
    split
    · rename_i h
      exact hmarked '$' _ rfl (beq_iff_eq.1 h)
    split
    · rename_i h
      exact hmarked '%' _ rfl (beq_iff_eq.1 (Bool.and_eq_true_iff.1 h).1)
    split
    · rename_i h
      exact hmarked '&' _ rfl (beq_iff_eq.1 (Bool.and_eq_true_iff.1 h).1)
    split
    · rename_i h
      exact hmarked Numeral.backQuote _ rfl (beq_iff_eq.1 h)
    split
    · exact decimal?_eq (c :: rest)
    · rfl

/-- A keyword is as long in bytes as its characters are. -/
theorem keyword_eq (ctx : ScanContext) (rest : List Char) :
    keyword ctx rest = some (byteLength (rest.take (keywordLength ctx rest))) := by
  have hword := byteLength_take_countWhile ascii_isWordChar rest
  have hslice := upTo?_countWhile ascii_isWordChar rest
  simp only [keyword, keywordLength, wordBytes_eq, Option.bind_eq_bind, pure, headWord, hslice,
    Option.bind_some]
  cases Keyword.ofWord? (String.ofList (rest.takeWhile Text.isWordChar)) with
  | none => rfl
  | some keyword =>
    dsimp only
    split
    · rw [hword]
    · rfl

/-- A mnemonic is as long in bytes as its characters are. -/
theorem opcode_eq (ctx : ScanContext) (rest : List Char) :
    opcode ctx rest = some (byteLength (rest.take (opcodeLength rest))) := by
  have hword := byteLength_take_countWhile ascii_isWordChar rest
  have hslice := upTo?_countWhile ascii_isWordChar rest
  simp only [opcode, opcodeLength, wordBytes_eq, Option.bind_eq_bind, pure, headWord, hslice,
    Option.bind_some]
  by_cases hmnemonic : isMnemonic (String.ofList (rest.takeWhile Text.isWordChar)) = true
  · simp only [hmnemonic, if_true, hword]
    split
    · rfl
    · rename_i hzero
      rw [Nat.eq_zero_of_not_pos hzero]
  · simp [hmnemonic, byteLength]

/-- What a name takes: its characters, and the sign of a register that steps. -/
def nameLength (rest : List Char) : Nat :=
  let length := countWhile Text.isIdentChar rest
  if Text.sameWord (String.ofList (rest.takeWhile Text.isIdentChar)) "hl" &&
    closesStep (rest.drop length) then length + 1 else length

/-- A name is as long in bytes as its characters are. -/
theorem name?_eq (rest : List Char) :
    name? rest = some (byteLength (rest.take (nameLength rest))) := by
  have hname := byteLength_take_countWhile ascii_isIdentChar rest
  have hslice := upTo?_countWhile ascii_isIdentChar rest
  have hsign := any_head?_bytes (p := fun c => c == '+' || c == '-')
    ((ascii_eq rfl).or (ascii_eq rfl)) (rest.drop (countWhile Text.isIdentChar rest))
  rw [← drop_bytes, hname] at hsign
  simp only [name?, nameLength, countBytes_eq ascii_isIdentChar, Option.bind_eq_bind, pure, hslice,
    Option.bind_some, hsign]
  -- Behind `hl` a sign belongs to the name if a bracket closes behind it.
  cases Text.sameWord (String.ofList (rest.takeWhile Text.isIdentChar)) "hl" with
  | false => simp [hname]
  | true =>
    cases hrest : rest.drop (countWhile Text.isIdentChar rest) with
    | nil => simp [hname, closesStep]
    | cons c tail =>
      cases hc : c == '+' || c == '-' with
      | false => simp [hname, closesStep, hc]
      | true =>
        have hsize : c.utf8Size = 1 := ((ascii_eq rfl).or (ascii_eq rfl)) c hc
        have htake : rest.take (countWhile Text.isIdentChar rest + 1) =
            rest.take (countWhile Text.isIdentChar rest) ++ [c] := by
          rw [List.take_add, hrest]
          rfl
        have hbytes : byteLength (rest.take (countWhile Text.isIdentChar rest + 1)) =
            countWhile Text.isIdentChar rest + 1 := by
          rw [htake, Text.byteLength_append, hname, byteLength, byteLength, hsize]
        have htail := from?_take rest (countWhile Text.isIdentChar rest + 1)
        rw [hbytes, ← List.drop_drop, hrest] at htail
        simp only [Bool.true_and, List.head?_cons, Option.any_some, hc, if_true, htail,
          Option.bind_some, closesStep, List.drop_one, List.tail_cons]
        split
        · rw [hbytes]
        · rw [hname]

/-- An identifier is as long in bytes as its characters are. -/
theorem identifier_eq (ctx : ScanContext) (rest : List Char) :
    identifier ctx rest = some (byteLength (rest.take (identifierLength rest))) := by
  unfold identifier
  cases rest with
  | nil => rfl
  | cons c rest =>
    have hat : Ascii (· == '@') := ascii_eq rfl
    have hstart : Ascii fun c => c.isAlpha || c == '_' || c == '.' :=
      (ascii_isAlpha.or (ascii_eq rfl)).or (ascii_eq rfl)
    rw [bytes_cons]
    by_cases hc : c.utf8Size = 1
    · simp only [String.utf8EncodeChar_eq_singleton hc, List.singleton_append,
        asByte_encode _ hc, any_head?_bytes ascii_isIdentChar, name?_eq]
      cases hsign : c == '@' with
      | true =>
        obtain rfl := beq_iff_eq.1 hsign
        cases hnext : rest.head?.any Text.isIdentChar with
        | false => simp [identifierLength, hnext, byteLength, hc]
        | true => simp [identifierLength, hnext, byteLength]
      | false =>
        simp only [Bool.false_and, Bool.false_eq_true, if_false, identifierLength, hsign]
        split
        · rfl
        · rfl
    · obtain ⟨b, bs, henc, hb⟩ := exists_encode_eq_cons hc
      have hnot : (c == '@') = false := Bool.eq_false_iff.2 fun h => hc (hat c h)
      have hno : (c.isAlpha || c == '_' || c == '.') = false :=
        Bool.eq_false_iff.2 fun h => hc (hstart c h)
      simp [henc, asByte, hb, identifierLength, hnot, hno, byteLength]

/-- An operator is as long in bytes as its characters are. -/
theorem operator_eq (ctx : ScanContext) (rest : List Char) :
    operator ctx rest = some (byteLength (rest.take (operatorLength rest))) := by
  unfold operator operatorLength
  split
  · rename_i h
    obtain ⟨spelling, hmem, hpre⟩ := List.any_eq_true.1 h
    have htwo : ∀ s ∈ digraphs, s.length = 2 ∧ byteLength s = 2 := by decide
    obtain ⟨hlength, hbytes⟩ := htwo spelling hmem
    rw [← hlength, ← List.prefix_iff_eq_take.1 (List.isPrefixOf_iff_prefix.1 hpre), hbytes]
    exact congrArg some hlength
  · have hops : Ascii operatorChars.contains := ascii_contains (by decide)
    rw [any_head?_bytes hops]
    split
    · rename_i h
      obtain ⟨c, hhead, hc⟩ := (Option.any_eq_true _ _).1 h
      obtain ⟨tail, rfl⟩ := List.head?_eq_some_iff.1 hhead
      simp [byteLength, hops c hc]
    · rfl

theorem macroArgumentLength_eq (rest : List Char) :
    macroArgumentLength rest = if isBackslashed isArgumentName rest then 2 else 0 := by
  unfold macroArgumentLength
  split
  · rfl
  · rename_i h
    refine (if_neg fun hb => ?_).symm
    obtain ⟨c, tail, rfl, -⟩ := isBackslashed_iff.1 hb
    exact h c tail rfl

theorem byteLength_take_backslashed {p : Char → Bool} (hp : Ascii p) {rest : List Char}
    (h : isBackslashed p rest = true) : byteLength (rest.take 2) = 2 := by
  obtain ⟨c, tail, rfl, hc⟩ := isBackslashed_iff.1 h
  show '\\'.utf8Size + (c.utf8Size + 0) = 2
  rw [hp c hc]
  rfl

/-- An argument of a macro is two bytes, for its name is ASCII. -/
theorem macroArgument_eq (ctx : ScanContext) (rest : List Char) :
    backslashed isArgumentName ctx rest =
      some (byteLength (rest.take (macroArgumentLength rest))) := by
  rw [backslashed_eq ascii_isArgumentName, macroArgumentLength_eq]
  cases h : isBackslashed isArgumentName rest with
  | true => simp [byteLength_take_backslashed ascii_isArgumentName h]
  | false => rfl

/-- The bytes of a fixed spelling, when the text begins with it. -/
def literal (spelling : List Char) : Scanner := fun _ rest =>
  some (if spelling.isPrefixOf rest then byteLength spelling else 0)

/-- A fixed spelling is as long in bytes as its characters are. -/
theorem literal_eq (spelling : List Char) (ctx : ScanContext) (rest : List Char) :
    literal spelling ctx rest = some (byteLength (rest.take (literalLength spelling rest))) := by
  unfold literal literalLength
  split
  · rename_i h
    rw [← List.prefix_iff_eq_take.1 (List.isPrefixOf_iff_prefix.1 h)]
  · rfl

/-- The number of an expansion is spelled in two bytes. -/
theorem uniqueLabel_eq (ctx : ScanContext) (rest : List Char) :
    literal ['\\', '@'] ctx rest = some (byteLength (rest.take (uniqueLabelLength rest))) := by
  have hlength : uniqueLabelLength rest = literalLength ['\\', '@'] rest := by
    unfold uniqueLabelLength literalLength
    split
    · rfl
    · rename_i h
      refine (if_neg fun hpre => ?_).symm
      obtain ⟨tail, rfl⟩ := List.isPrefixOf_iff_prefix.1 hpre
      exact h tail rfl
  rw [literal_eq, hlength]

/-- Text up to a delimiter is as long in bytes as its characters are. -/
theorem plain_eq (d : Delimiter) (ctx : ScanContext) (rest : List Char) :
    plain d ctx rest =
      some (byteLength (rest.take (countWhile (fun c => !d.endsText c) rest))) := by
  rw [plain, take_countWhile]

end Sm83Asm.Stored
