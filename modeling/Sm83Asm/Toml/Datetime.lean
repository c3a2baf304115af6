import Sm83Asm.Numeral
import Sm83Asm.Toml.Reader

set_option autoImplicit false

/-!
# Dates and times of TOML

A date, a time of day, or both with an optional offset from universal time. `Datetime.render` writes
them in one spelling, whatever the document used: `T` between date and time, `Z` for universal time,
and no zeros at the end of a fraction of a second.
-/

namespace Sm83Asm.Toml

/-- A day of the calendar. -/
structure Date where
  year : Nat
  month : Nat
  day : Nat
deriving DecidableEq, Repr, Inhabited

/-- A time of day. -/
structure Time where
  hour : Nat
  minute : Nat
  second : Nat
  nanosecond : Nat
deriving DecidableEq, Repr, Inhabited

/-- An offset from universal time. -/
inductive Offset where
  | universal
  | minutes (n : Int)
deriving DecidableEq, Repr, Inhabited

/-- Dates and times. -/
inductive Datetime where
  | date (date : Date)
  | time (time : Time)
  | both (date : Date) (time : Time) (offset : Option Offset)
deriving DecidableEq, Repr, Inhabited

/-! ## Writing -/

/-- A decimal number with zeros in front. -/
def paddedDecimal (width n : Nat) : String := Numeral.padTo width (Numeral.inBase 10 n)

/-- Writes a date. -/
def Date.render (d : Date) : String :=
  paddedDecimal 4 d.year ++ "-" ++ paddedDecimal 2 d.month ++ "-" ++ paddedDecimal 2 d.day

/-- Writes a fraction of a second; there is none to write when it is zero. -/
def fraction (nanosecond : Nat) : String :=
  if nanosecond == 0 then ""
  else
    let digits := (paddedDecimal 9 nanosecond).toList.reverse.dropWhile (· == '0')
    "." ++ String.ofList digits.reverse

/-- Writes a time of day. -/
def Time.render (t : Time) : String :=
  paddedDecimal 2 t.hour ++ ":" ++ paddedDecimal 2 t.minute ++ ":" ++ paddedDecimal 2 t.second ++
    fraction t.nanosecond

/-- Writes an offset. -/
def Offset.render : Offset → String
  | .universal => "Z"
  | .minutes n =>
    let sign := if n < 0 then "-" else "+"
    sign ++ paddedDecimal 2 (n.natAbs / 60) ++ ":" ++ paddedDecimal 2 (n.natAbs % 60)

/-- Writes a date, a time or both. -/
def Datetime.render : Datetime → String
  | .date d => d.render
  | .time t => t.render
  | .both d t none => d.render ++ "T" ++ t.render
  | .both d t (some offset) => d.render ++ "T" ++ t.render ++ offset.render

/-! ## Reading -/

/-- A number of exactly two digits at the head of a text. -/
def twoDigits? : Reader Nat
  | a :: b :: rest => if a.isDigit && b.isDigit then some (valueIn 10 [a, b], rest) else none
  | _ => none

/-- Days of a month. -/
def daysIn (year month : Nat) : Nat :=
  if month == 2 then
    if year % 4 == 0 && (year % 100 != 0 || year % 400 == 0) then 29 else 28
  else if month == 4 || month == 6 || month == 9 || month == 11 then 30
  else 31

/-- Reads a date. -/
def date? : Reader Date := fun cs => do
  let (century, cs) ← twoDigits? cs
  let (year, cs) ← twoDigits? cs
  let year := century * 100 + year
  guard (cs.head? == some '-')
  let (month, cs) ← twoDigits? cs.tail
  guard (cs.head? == some '-' && 1 ≤ month && month ≤ 12)
  let (day, cs) ← twoDigits? cs.tail
  guard (1 ≤ day && day ≤ daysIn year month)
  return ({ year, month, day }, cs)

/-- The nanoseconds of a fraction of a second; digits behind the ninth are dropped. -/
def nanoseconds (digits : List Char) : Nat :=
  let kept := digits.take 9
  valueIn 10 (kept ++ List.replicate (9 - kept.length) '0')

/-- Reads a time of day. -/
def time? : Reader Time := fun cs => do
  let (hour, cs) ← twoDigits? cs
  guard (cs.head? == some ':' && hour ≤ 23)
  let (minute, cs) ← twoDigits? cs.tail
  guard (cs.head? == some ':' && minute ≤ 59)
  let (second, cs) ← twoDigits? cs.tail
  guard (second ≤ 60)
  match cs with
  | '.' :: rest =>
    let digits := rest.takeWhile Char.isDigit
    guard !digits.isEmpty
    return (⟨hour, minute, second, nanoseconds digits⟩, rest.drop digits.length)
  | _ => return (⟨hour, minute, second, 0⟩, cs)

/-- Reads an offset from universal time; it may be missing. -/
def offset? : Reader (Option Offset) := fun cs =>
  let signed (sign : Int) (cs : List Char) : Option (Option Offset × List Char) := do
    let (hour, cs) ← twoDigits? cs
    guard (cs.head? == some ':' && hour ≤ 23)
    let (minute, cs) ← twoDigits? cs.tail
    guard (minute ≤ 59)
    return (some (.minutes (sign * (hour * 60 + minute : Nat))), cs)
  match cs with
  | 'Z' :: rest | 'z' :: rest => some (some .universal, rest)
  | '+' :: rest => signed 1 rest
  | '-' :: rest => signed (-1) rest
  | _ => some (none, cs)

/-- Reads a date, a time or both. -/
def datetime? : Reader Datetime := fun cs =>
  match date? cs with
  | none => (time? cs).map fun (t, rest) => (.time t, rest)
  | some (d, rest) =>
    match rest with
    | mark :: clock =>
      if mark == 'T' || mark == 't' || (mark == ' ' && (twoDigits? clock).isSome) then do
        let (t, rest) ← time? clock
        let (offset, rest) ← offset? rest
        return (.both d t offset, rest)
      else some (.date d, rest)
    | [] => some (.date d, [])

end Sm83Asm.Toml
