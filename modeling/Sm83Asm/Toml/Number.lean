import Sm83Asm.Toml.Reader

set_option autoImplicit false

/-!
# Numbers of TOML

Integers have 64 bits. Numbers with a fraction or an exponent are only recognised, their values are
not kept; one that is too large for 64 bits of floating point is refused.
-/

namespace Sm83Asm.Toml

/-- Digits with single underscores between them. -/
def digits? (isDigit : Char → Bool) : List Char → Option (List Char)
  | [] => none
  | [c] => if isDigit c then some [c] else none
  | c :: '_' :: rest => if isDigit c then (digits? isDigit rest).map (c :: ·) else none
  | c :: rest => if isDigit c then (digits? isDigit rest).map (c :: ·) else none

/-- The sign and the rest of a number. -/
def splitSign : List Char → Bool × List Char
  | '-' :: cs => (true, cs)
  | '+' :: cs => (false, cs)
  | cs => (false, cs)

/-- Decimal digits that begin with a zero only when there is no other. -/
def wholeDigits? (cs : List Char) : Option (List Char) :=
  match digits? Char.isDigit cs with
  | some ('0' :: _ :: _) => none
  | other => other

/-- Integers of 64 bits. -/
def inRange (n : Int) : Bool := -0x8000000000000000 ≤ n && n < 0x8000000000000000

/-- Reads a whole word as an integer. -/
def integer? (word : List Char) : Option Int :=
  let unsigned (base : Nat) (isDigit : Char → Bool) (cs : List Char) : Option Int :=
    (digits? isDigit cs).map fun ds => (valueIn base ds : Int)
  let value := match word with
    | '0' :: 'x' :: cs => unsigned 16 (fun c => (hexValue? [c]).isSome) cs
    | '0' :: 'o' :: cs => unsigned 8 (fun c => '0' ≤ c && c ≤ '7') cs
    | '0' :: 'b' :: cs => unsigned 2 (fun c => c == '0' || c == '1') cs
    | _ =>
      let (negative, cs) := splitSign word
      (wholeDigits? cs).map fun ds =>
        let n : Int := valueIn 10 ds
        if negative then -n else n
  value.filter inRange

/-- The least number that floating point of 64 bits rounds to infinity: half a unit in the last
place above the largest finite number. -/
def infiniteFrom : Nat := (1 <<< 1024) - (1 <<< 970)

/-- Whether the number `n · 10 ^ exponent` is rounded to infinity, where `n` has at most `length`
digits. Numbers far from the limit are told apart by their size alone. -/
def overflows (n length : Nat) : (exponent : Int) → Bool
  | .ofNat e => n != 0 && (400 < e || infiniteFrom ≤ n * Nat.pow 10 e)
  | .negSucc e => e + 301 ≤ length && infiniteFrom * Nat.pow 10 (e + 1) ≤ n

/-- Whether a word without its sign is a number with a fraction or an exponent. A number that is
not `negative` must be finite after rounding. -/
def isDecimal (negative : Bool) (cs : List Char) : Bool :=
  let isMark (c : Char) := c == 'e' || c == 'E'
  let mantissa := cs.takeWhile fun c => !isMark c
  let mark := cs.drop mantissa.length
  let whole := mantissa.takeWhile (· != '.')
  let point := mantissa.drop whole.length
  let (down, power) := splitSign mark.tail
  let optional (part digits : List Char) :=
    if part.isEmpty then some [] else digits? Char.isDigit digits
  match wholeDigits? whole, optional point point.tail, optional mark power with
  | some whole, some fraction, some power =>
    let digits := whole ++ fraction
    let exponent : Int := if down then -valueIn 10 power else valueIn 10 power
    !(point.isEmpty && mark.isEmpty) &&
      (negative || !overflows (valueIn 10 digits) digits.length (exponent - fraction.length))
  | _, _, _ => false

/-- Whether a word is a number with a fraction or an exponent, an infinity or no number. -/
def isFloat (word : List Char) : Bool :=
  let (negative, cs) := splitSign word
  cs == ['i', 'n', 'f'] || cs == ['n', 'a', 'n'] || isDecimal negative cs

end Sm83Asm.Toml
