import Sm83Asm.Config
import Sm83Asm.Text.Basic

set_option autoImplicit false

/-!
# Numerals

How numbers are written and read. A 32-bit number is written in hexadecimal and binary through its
two's complement, so that every number has one unsigned spelling.

A fixed-point number counts 65536ths. Its fraction is read as the nearest binary number with 53
significant bits, ties to even, and then rounded to 65536ths with halves going up; it is written
with five decimals, ties to even.

In a literal, `$` begins a hexadecimal number, `%` a binary one with the digits that the options
name, `&` an octal one and a back quote a row of up to eight pixels. Other literals are decimal, with
a fixed-point fraction behind a point. Underscores between the digits mean nothing. Literals have 32
bits; one that needs more has no value.
-/

namespace Sm83Asm.Numeral

/-! ## Numbers in other bases -/

/-- Digits of a number in a base up to sixteen, letters in lower case. -/
def inBase (base n : Nat) : String :=
  String.ofList (Nat.toDigits base n)

/-- Hexadecimal with letters in lower case. -/
def hexLower (n : Int32) : String := inBase 16 n.toUInt32.toNat

/-- Hexadecimal with letters in upper case. -/
def hexUpper (n : Int32) : String := Text.upper (hexLower n)

/-- Binary. -/
def binary (n : Int32) : String := inBase 2 n.toUInt32.toNat

/-- Decimal with a sign in front of negative values. -/
def decimal (n : Int32) : String := toString n.toInt

/-- Zeros in front of a numeral up to a width. -/
def padTo (width : Nat) (numeral : String) : String :=
  String.ofList (List.replicate (width - numeral.length) '0') ++ numeral

/-! ## Fixed-point numbers -/

/-- `num / den` rounded to the nearest integer, a tie going to the even neighbour. -/
def divToEven (num den : Nat) : Nat :=
  let (q, r) := (num / den, num % den)
  if 2 * r < den then q
  else if 2 * r > den then q + 1
  else if q % 2 == 0 then q else q + 1

/-- `num / den` rounded to the nearest integer, a tie going up. -/
def divHalfUp (num den : Nat) : Nat :=
  (2 * num + den) / (2 * den)

/-- A non-negative number `significand * 2 ^ up / 2 ^ down`. -/
structure Dyadic where
  significand : Nat
  up : Nat
  down : Nat

/-- The nearest number to `num / den` with 53 significant bits, a tie going to the even one. -/
def nearestDyadic (num den : Nat) : Dyadic :=
  -- scaled by `2 ^ down / 2 ^ up`, the quotient lies between `2 ^ 52` and `2 ^ 54`
  let (bn, bd) := (Nat.log2 num + 1, Nat.log2 den + 1)
  let down := 53 + bd - bn
  let up := bn - (53 + bd)
  let (num, den) := (num <<< down, den <<< up)
  if num / den < 0x20000000000000 then ⟨divToEven num den, up, down⟩
  else ⟨divToEven num (den * 2), up + 1, down⟩

/-- A decimal fraction with an exponent: `digits` behind the point, scaled by `10 ^ exponent`. -/
structure DecimalFraction where
  digits : List Char
  exponent : Int

/-- Value of a list of decimal digits. -/
def digitsValue (digits : List Char) : Nat :=
  digits.foldl (fun n c => n * 10 + (c.toNat - '0'.toNat)) 0

/-- Reads `ddd`, `ddde5`, `ddde-5`: digits and an optional exponent. -/
def readFraction? (cs : List Char) : Option DecimalFraction :=
  match cs.span Char.isDigit with
  | (digits, []) => some ⟨digits, 0⟩
  | (digits, mark :: rest) =>
    if mark != 'e' && mark != 'E' then none
    else
      let (negative, power) :=
        match rest with
        | '-' :: power => (true, power)
        | '+' :: power => (false, power)
        | power => (false, power)
      if power.isEmpty || !power.all Char.isDigit then none
      else
        let value : Int := digitsValue power
        some ⟨digits, if negative then -value else value⟩

/-- The largest 32-bit number. -/
def maxFixed : Nat := 0xFFFFFFFF

/-- 65536ths of a decimal fraction, at most the largest 32-bit number. -/
def DecimalFraction.toFixed (f : DecimalFraction) : Nat :=
  let num := digitsValue f.digits
  let scale := f.exponent - f.digits.length
  if num == 0 then 0
  -- beyond these bounds the number is certainly too large, or too small to count
  else if scale > 20 then maxFixed
  else if scale + f.digits.length < -20 then 0
  else
    let power := Nat.pow 10 scale.natAbs
    let (num, den) := if scale < 0 then (num, power) else (num * power, 1)
    let d := nearestDyadic num den
    min (divHalfUp ((d.significand <<< d.up) * 65536) (1 <<< d.down)) maxFixed

/-- A number of 65536ths with five decimals. -/
def fixedDecimal (n : Int32) : String :=
  let scaled := divToEven (n.toInt.natAbs * 100000) 65536
  let (whole, part) := (toString (scaled / 100000), toString (scaled % 100000))
  let zeros := String.ofList (List.replicate (5 - part.length) '0')
  (if n < 0 then "-" else "") ++ whole ++ "." ++ zeros ++ part

/-! ## Literals -/

/-- The back quote, which begins a pixel literal. -/
def backQuote : Char := Char.ofNat 0x60

/-- Value of a digit in a base up to sixteen. -/
def digitOf? (base : Nat) (c : Char) : Option Nat :=
  let value? :=
    if c.isDigit then some (c.toNat - '0'.toNat)
    else if 'a' ≤ c && c ≤ 'f' then some (c.toNat - 'a'.toNat + 10)
    else if 'A' ≤ c && c ≤ 'F' then some (c.toNat - 'A'.toNat + 10)
    else none
  value?.filter (· < base)

/-- Digits without the underscores between them. -/
def significant (cs : List Char) : List Char :=
  cs.filter (· != '_')

/-- Value of a row of digits that follow the digits of `value`, as long as it has 32 bits. -/
def accumulate (base : Nat) (digit? : Char → Option Nat) (value : Nat) : List Char → Option Nat
  | [] => some value
  | c :: cs =>
    match digit? c with
    | none => none
    | some d =>
      let next := value * base + d
      if next < 0x100000000 then accumulate base digit? next cs else none

/-- Value of a row of digits; there must be at least one. -/
def positional? (base : Nat) (digit? : Char → Option Nat) (cs : List Char) : Option Int32 :=
  match significant cs with
  | [] => none
  | digits => (accumulate base digit? 0 digits).map fun n => (UInt32.ofNat n).toInt32

/-- Value of a row of up to eight pixels: the low bits of the pixels make the low byte, their high
bits the byte above it. -/
def pixels? (digits : List Char) (cs : List Char) : Option Int32 :=
  let row := significant cs
  match row.mapM fun c => digits.findIdx? (· == c) with
  | none => none
  | some values =>
    if values.isEmpty || values.length > 8 then none
    else
      let low := values.foldl (fun n p => n * 2 + p % 2) 0
      let high := values.foldl (fun n p => n * 2 + p / 2) 0
      some (Int32.ofNat (high * 256 + low))

/-- Value of the part in front of a point: an unsigned decimal number, perhaps with a plus. -/
def whole? (cs : List Char) : Option Nat :=
  let digits :=
    match significant cs with
    | '+' :: digits => digits
    | digits => digits
  if digits.isEmpty then none else accumulate 10 (digitOf? 10) 0 digits

/-- Value of a decimal number with a fraction behind a point. -/
def fixed? (whole fraction : List Char) : Option Int32 := do
  let n ← whole? whole
  let f ← readFraction? (significant fraction)
  return (UInt32.ofNat (n * 65536 + f.toFixed)).toInt32

/-- Value of a numeric literal. -/
def value? (options : Options) (text : String) : Option Int32 :=
  match text.toList with
  | '$' :: digits => positional? 16 (digitOf? 16) digits
  | '%' :: digits => positional? 2 (fun c => options.binaryList.findIdx? (· == c)) digits
  | '&' :: digits => positional? 8 (digitOf? 8) digits
  | cs =>
    if cs.head? == some backQuote then pixels? options.pixelList cs.tail
    else
      match Text.splitOnce? '.' cs with
      | some (whole, fraction) => fixed? whole fraction
      | none => positional? 10 (digitOf? 10) cs

end Sm83Asm.Numeral
