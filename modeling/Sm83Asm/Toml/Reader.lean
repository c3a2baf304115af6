set_option autoImplicit false

/-!
# Readers of TOML text

Every reader takes the characters that are left and gives a result and the characters behind it,
or nothing when the text is not TOML. Here are the classes of characters, what may be skipped, and
the values of digits.
-/

namespace Sm83Asm.Toml

/-- A reader of values of type `α`. -/
abbrev Reader (α : Type) := List Char → Option (α × List Char)

/-- Blanks inside a line. -/
def isSpace (c : Char) : Bool := c == ' ' || c == '\t'

/-- Characters that may stand in comments and in strings of one line, quotes and backslashes of the
latter aside. -/
def isTextChar (c : Char) : Bool := c == '\t' || (c.toNat ≥ 0x20 && c.toNat != 0x7F)

/-- Characters of keys without quotes. -/
def isKeyChar (c : Char) : Bool := c.isAlphanum || c == '_' || c == '-'

/-- Drops blanks. -/
def skipSpace (cs : List Char) : List Char := cs.dropWhile isSpace

/-- Drops blanks, line ends and comments. -/
def skipBlank (inComment : Bool) : List Char → List Char
  | [] => []
  | '\n' :: cs => skipBlank false cs
  | '\r' :: '\n' :: cs => skipBlank false cs
  | c :: cs =>
    if inComment then if isTextChar c then skipBlank true cs else c :: cs
    else if c == '#' then skipBlank true cs
    else if isSpace c then skipBlank false cs
    else c :: cs

/-- Drops blanks and a comment up to the end of the line, which must follow. -/
def endLine? (cs : List Char) : Option (List Char) :=
  let cs := skipSpace cs
  let cs := if cs.head? == some '#' then cs.dropWhile isTextChar else cs
  match cs with
  | [] => some []
  | '\n' :: rest => some rest
  | '\r' :: '\n' :: rest => some rest
  | _ => none

/-- Value of hexadecimal digits. -/
def hexValue? (digits : List Char) : Option Nat :=
  digits.foldlM (fun n c =>
    if c.isDigit then some (n * 16 + (c.toNat - '0'.toNat))
    else if 'a' ≤ c && c ≤ 'f' then some (n * 16 + (c.toNat - 'a'.toNat + 10))
    else if 'A' ≤ c && c ≤ 'F' then some (n * 16 + (c.toNat - 'A'.toNat + 10))
    else none) 0

/-- Value of digits in a base. -/
def valueIn (base : Nat) (digits : List Char) : Nat :=
  digits.foldl (fun n c => n * base + ((hexValue? [c]).getD 0)) 0

end Sm83Asm.Toml
