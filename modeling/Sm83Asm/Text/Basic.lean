set_option autoImplicit false

/-!
# Text as a list of characters

Source lines are scanned as lists of characters, while every position that leaves the library
(a column, an offset, a length) counts bytes of the UTF-8 encoding. This module relates the two
measures, folds the case of ASCII letters, and searches and replaces inside a text.

Words of the assembly language are ASCII, so keyword, register and function names are compared
with `sameWord`, which folds ASCII letters only.

`decode` reads any byte sequence as UTF-8. Well-formed sequences give their characters; where a
sequence breaks off, the longest part that could still have begun a character becomes one
replacement character U+FFFD and reading goes on with the byte after it.
-/

namespace Sm83Asm.Text

/-! ## Measures -/

/-- Number of bytes that `cs` takes in UTF-8. -/
def byteLength : List Char → Nat
  | [] => 0
  | c :: cs => c.utf8Size + byteLength cs

/-- The character index at which exactly `offset` bytes of `cs` lie behind, if there is one. -/
def charIndex? : List Char → Nat → Option Nat
  | _, 0 => some 0
  | [], _ + 1 => none
  | c :: cs, n + 1 =>
    if c.utf8Size ≤ n + 1 then (charIndex? cs (n + 1 - c.utf8Size)).map (· + 1) else none

/-- The bytes of a text in UTF-8. -/
def utf8 (s : String) : List UInt8 :=
  s.toUTF8.data.toList

/-! ## Words -/

/-- Lower case of every ASCII letter. -/
def lower (s : String) : String :=
  String.ofList (s.toList.map Char.toLower)

/-- Upper case of every ASCII letter. -/
def upper (s : String) : String :=
  String.ofList (s.toList.map Char.toUpper)

/-- Equality up to the case of ASCII letters. -/
def sameWord (s t : String) : Bool :=
  lower s == lower t

/-- Letters, digits and the underscore. -/
def isWordChar (c : Char) : Bool :=
  c.isAlphanum || c == '_'

/-- Characters that may continue an identifier. -/
def isIdentChar (c : Char) : Bool :=
  isWordChar c || c == '.' || c == '#' || c == '@'

/-! ## Searching -/

/-- Character index of the first occurrence of `needle`. -/
def find? (needle : List Char) : List Char → Option Nat
  | [] => if needle.isEmpty then some 0 else none
  | c :: cs =>
    if needle.isPrefixOf (c :: cs) then some 0 else (find? needle cs).map (· + 1)

/-- Every occurrence of `old`, taken from the left without overlap, becomes `new`. The counter
`skip` is the number of characters of the current occurrence that are still to be passed over. -/
def replaceFrom (old new : List Char) (skip : Nat) : List Char → List Char
  | [] => []
  | c :: cs =>
    match skip with
    | n + 1 => replaceFrom old new n cs
    | 0 =>
      if old.isPrefixOf (c :: cs) then new ++ replaceFrom old new (old.length - 1) cs
      else c :: replaceFrom old new 0 cs

/-- Replaces every occurrence of a non-empty text; an empty `old` leaves the text as it is. -/
def replaceAll (old new cs : List Char) : List Char :=
  if old.isEmpty then cs else replaceFrom old new 0 cs

/-- The parts before and after the first `sep`, if there is one. -/
def splitOnce? (sep : Char) (cs : List Char) : Option (List Char × List Char) :=
  match cs.span (· != sep) with
  | (front, _ :: back) => some (front, back)
  | (_, []) => none

/-! ## Lines -/

/-- Drops the carriage return in front of a line feed. -/
def dropReturn (line : List Char) : List Char :=
  match line.reverse with
  | '\r' :: body => body.reverse
  | _ => line

/-- Lines of a text, with `current` holding the reversed start of the line being read. A line
feed ends a line; what follows the last one is a line only when it is not empty. -/
def linesFrom (current : List Char) : List Char → List (List Char)
  | [] => if current.isEmpty then [] else [current.reverse]
  | '\n' :: cs => dropReturn current.reverse :: linesFrom [] cs
  | c :: cs => linesFrom (c :: current) cs

/-- The lines of a text. -/
def lines (s : String) : List String :=
  (linesFrom [] s.toList).map String.ofList

/-! ## Blanks -/

/-- The characters with the Unicode property `White_Space`. -/
def isBlank (c : Char) : Bool :=
  let n := c.toNat
  (9 ≤ n && n ≤ 13) || n == 0x20 || n == 0x85 || n == 0xA0 || n == 0x1680 ||
    (0x2000 ≤ n && n ≤ 0x200A) || n == 0x2028 || n == 0x2029 || n == 0x202F || n == 0x205F ||
    n == 0x3000

/-- Text without leading blanks. -/
def trimStart (cs : List Char) : List Char :=
  cs.dropWhile isBlank

/-- Text without leading and trailing blanks. -/
def trim (cs : List Char) : List Char :=
  (trimStart (trimStart cs).reverse).reverse

/-! ## Reading bytes as UTF-8 -/

/-- The character that stands for bytes which are not UTF-8. -/
def replacementChar : Char := Char.ofNat 0xFFFD

/-- Number of continuation bytes that a lead byte asks for, and the range of the first of them.
`none` for bytes that begin no character. -/
def leadByte? (b : UInt8) : Option (Nat × UInt8 × UInt8) :=
  if 0xC2 ≤ b && b ≤ 0xDF then some (1, 0x80, 0xBF)
  else if b == 0xE0 then some (2, 0xA0, 0xBF)
  else if b == 0xED then some (2, 0x80, 0x9F)
  else if 0xE1 ≤ b && b ≤ 0xEF then some (2, 0x80, 0xBF)
  else if b == 0xF0 then some (3, 0x90, 0xBF)
  else if b == 0xF4 then some (3, 0x80, 0x8F)
  else if 0xF1 ≤ b && b ≤ 0xF3 then some (3, 0x80, 0xBF)
  else none

/-- Reader state: between characters, or inside one with `left` continuation bytes to come, the
next of which lies in `lo..hi`, and `value` the bits read so far. -/
inductive Utf8State where
  | between
  | inside (left : Nat) (lo hi : UInt8) (value : Nat)

/-- Reads a byte between two characters: the characters that it completes and the next state. -/
def beginChar (b : UInt8) : List Char × Utf8State :=
  if b < 0x80 then ([Char.ofNat b.toNat], .between)
  else
    match leadByte? b with
    | some (n, lo, hi) => ([], .inside n lo hi (b.toNat % (1 <<< (6 - n))))
    | none => ([replacementChar], .between)

/-- Reads one byte. -/
def utf8Step : Utf8State → UInt8 → List Char × Utf8State
  | .between, b => beginChar b
  | .inside left lo hi value, b =>
    if lo ≤ b && b ≤ hi then
      let value := value * 64 + b.toNat % 64
      if left ≤ 1 then ([Char.ofNat value], .between)
      else ([], .inside (left - 1) 0x80 0xBF value)
    else
      let (cs, next) := beginChar b
      (replacementChar :: cs, next)

/-- Reads the remaining bytes; a character that the input breaks off is a replacement. -/
def decodeFrom : Utf8State → List UInt8 → List Char
  | .between, [] => []
  | .inside _ _ _ _, [] => [replacementChar]
  | s, b :: bs => let (cs, next) := utf8Step s b; cs ++ decodeFrom next bs

/-- The text of a byte sequence. -/
def decode (bytes : List UInt8) : String :=
  String.ofList (decodeFrom .between bytes)

end Sm83Asm.Text
