import Sm83Asm.Toml.Reader

set_option autoImplicit false

/-!
# Strings and keys of TOML

Strings stand between quotes. Double quotes admit escapes and single ones do not; three quotes open
a string of several lines. The parts of a key are bare words or strings of one line.
-/

namespace Sm83Asm.Toml

/-- The character with a hexadecimal code. -/
def hexChar? (digits : List Char) : Option Char :=
  match hexValue? digits with
  | some n => if n.isValidChar then some (Char.ofNat n) else none
  | none => none

/-- The character that a backslash and a letter stand for. -/
def escape? : Char → Option Char
  | 'b' => some '\x08'
  | 't' => some '\t'
  | 'n' => some '\n'
  | 'f' => some '\x0c'
  | 'r' => some '\r'
  | '"' => some '"'
  | '\\' => some '\\'
  | _ => none

/-- Reads what follows a backslash. -/
def escaped? : List Char → Option (Char × List Char)
  | 'u' :: cs =>
    if cs.length < 4 then none else (hexChar? (cs.take 4)).map fun c => (c, cs.drop 4)
  | 'U' :: cs =>
    if cs.length < 8 then none else (hexChar? (cs.take 8)).map fun c => (c, cs.drop 8)
  | c :: cs => (escape? c).map fun c => (c, cs)
  | [] => none

theorem length_escaped?_lt {cs rest : List Char} {c : Char} (h : escaped? cs = some (c, rest)) :
    rest.length < cs.length := by
  unfold escaped? at h
  split at h
  · split at h
    · cases h
    · obtain ⟨_, _, h⟩ := Option.map_eq_some_iff.1 h
      cases h; simp only [List.length_drop, List.length_cons]; omega
  · split at h
    · cases h
    · obtain ⟨_, _, h⟩ := Option.map_eq_some_iff.1 h
      cases h; simp only [List.length_drop, List.length_cons]; omega
  · obtain ⟨_, _, h⟩ := Option.map_eq_some_iff.1 h
    cases h; simp
  · cases h

/-- Reads a string of one line with escapes, behind its opening quote. -/
def basicString (cs : List Char) : Option (List Char × List Char) :=
  match cs with
  | [] => none
  | '"' :: rest => some ([], rest)
  | '\\' :: rest =>
    match _h : escaped? rest with
    | none => none
    | some (c, rest) => (basicString rest).map fun (s, rest) => (c :: s, rest)
  | c :: rest =>
    if isTextChar c then (basicString rest).map fun (s, rest) => (c :: s, rest) else none
termination_by cs.length
decreasing_by
  · have := length_escaped?_lt _h
    simp only [List.length_cons]; omega
  · simp

/-- Reads a string of one line without escapes, behind its opening quote. -/
def literalString : List Char → Option (List Char × List Char)
  | [] => none
  | '\'' :: rest => some ([], rest)
  | c :: rest =>
    if isTextChar c then (literalString rest).map fun (s, rest) => (c :: s, rest) else none

/-- Drops the line end that may follow the opening of a long string. -/
def dropFirstNewline : List Char → List Char
  | '\n' :: cs => cs
  | '\r' :: '\n' :: cs => cs
  | cs => cs

/-- Drops blanks and line ends. -/
def skipLines : List Char → List Char
  | [] => []
  | '\n' :: cs => skipLines cs
  | '\r' :: '\n' :: cs => skipLines cs
  | c :: cs => if isSpace c then skipLines cs else c :: cs

theorem length_skipLines_le (cs : List Char) : (skipLines cs).length ≤ cs.length := by
  fun_induction skipLines cs with
  | case1 => exact Nat.le_refl _
  | case2 cs ih => exact Nat.le_succ_of_le ih
  | case3 cs ih => exact Nat.le_succ_of_le (Nat.le_succ_of_le ih)
  | case4 c cs _ _ _ ih => exact Nat.le_succ_of_le ih
  | case5 c cs _ _ _ => exact Nat.le_refl _

/-- Whether the rest of the line is blank. -/
def blankLine (cs : List Char) : Bool :=
  match skipSpace cs with
  | '\n' :: _ => true
  | '\r' :: '\n' :: _ => true
  | _ => false

/-- Reads a string of several lines behind its opening quotes. Three quotes close it; up to two
more in front of them belong to the text, of which `quotes` were just read. A backslash at the end
of a line drops the blanks and line ends that follow. -/
def longString (quote : Char) (escapes : Bool) (quotes : Nat) (cs : List Char) :
    Option (List Char × List Char) :=
  match cs with
  | [] => none
  | c :: rest =>
    let keep (c : Char) (quotes : Nat) :=
      (longString quote escapes quotes rest).map fun (s, rest) => (c :: s, rest)
    if c == quote then
      if rest.take 2 == [quote, quote] then
        if quotes < 2 && rest[2]? == some quote then keep c (quotes + 1) else some ([], rest.drop 2)
      else keep c (quotes + 1)
    else if c == '\\' && escapes then
      if blankLine rest then longString quote escapes 0 (skipLines rest)
      else
        match _h : escaped? rest with
        | none => none
        | some (c, rest) => (longString quote escapes 0 rest).map fun (s, rest) => (c :: s, rest)
    else if c == '\r' then
      if rest.head? == some '\n' then longString quote escapes 0 rest else none
    else if c == '\n' || isTextChar c then keep c 0
    else none
termination_by cs.length
decreasing_by
  · simp
  · have := length_skipLines_le rest
    simp only [List.length_cons]; omega
  · have := length_escaped?_lt _h
    simp only [List.length_cons]; omega
  · simp

/-- Reads a string. -/
def string? : Reader String := fun cs =>
  let text (r : Option (List Char × List Char)) := r.map fun (s, rest) => (String.ofList s, rest)
  match cs with
  | '"' :: '"' :: '"' :: rest => text (longString '"' true 0 (dropFirstNewline rest))
  | '\'' :: '\'' :: '\'' :: rest => text (longString '\'' false 0 (dropFirstNewline rest))
  | '"' :: rest => text (basicString rest)
  | '\'' :: rest => text (literalString rest)
  | _ => none

/-! ## Keys -/

/-- Reads one part of a key. -/
def simpleKey? : Reader String := fun cs =>
  match cs with
  | '"' :: rest => (basicString rest).map fun (s, rest) => (String.ofList s, rest)
  | '\'' :: rest => (literalString rest).map fun (s, rest) => (String.ofList s, rest)
  | _ =>
    match cs.takeWhile isKeyChar with
    | [] => none
    | name => some (String.ofList name, cs.drop name.length)

/-- Reads the parts of a key between dots, as many as `parts` at most. -/
def keyParts? : Nat → Reader (List String)
  | 0, _ => none
  | parts + 1, cs =>
    match simpleKey? (skipSpace cs) with
    | none => none
    | some (part, rest) =>
      match skipSpace rest with
      | '.' :: rest => (keyParts? parts rest).map fun (names, rest) => (part :: names, rest)
      | rest => some ([part], rest)

/-- How deep keys and values may be nested. -/
def maxNesting : Nat := 79

/-- Reads a key. -/
def key? : Reader (List String) := keyParts? maxNesting

end Sm83Asm.Toml
