import Sm83Asm.State

set_option autoImplicit false

/-!
# Values of names

A value is a number or a text. A name gets its value from the predefined names, then the number
equates, then the string equates, then the variables; labels have no value before they are linked.
-/

namespace Sm83Asm

/-- Numbers and texts. -/
inductive Value where
  | number (n : Int32)
  | text (s : String)
deriving DecidableEq, Repr, Inhabited

/-- What the user of an expression wants. -/
inductive Expected where
  | number
  | text
  | either
deriving DecidableEq, Repr, Inhabited

namespace Value

/-- What stands for a value that could not be computed. -/
def zero : Expected → Value
  | .text => .text ""
  | .number | .either => .number 0

/-- The number, or zero for a text. -/
def toNumber : Value → Int32
  | .number n => n
  | .text _ => 0

/-- The text, or the empty text for a number. -/
def toText : Value → String
  | .number _ => ""
  | .text s => s

end Value

/-- The version of the language that sources can ask for. -/
def languageVersion : String := "0.6.1"

namespace State

/-- Names that always have a value. -/
def predefined? (st : State) : String → Option Value
  | "_RS" => some (.number st.fieldOffset)
  | "_NARG" => st.frame?.map fun f => .number (Int32.ofNat f.remaining.length)
  | "__LINE__" => some (.number (Int32.ofNat st.line))
  | "__FILE__" => some (.text st.file)
  | "__RGBDS_VERSION__" => some (.text languageVersion)
  | "__MACRO_COUNTER__" =>
    if st.extensions then some (.number (Int32.ofNat st.expansions)) else none
  | _ => none

/-- The value of a name. -/
def lookup? (st : State) (name : String) : Option Value :=
  match st.predefined? name with
  | some value => some value
  | none =>
    match st.numbers.get? name with
    | some equate => some (.number equate.value)
    | none =>
      match st.strings.get? name with
      | some equate => some (.text equate.value)
      | none => (st.vars.get? name).map fun v => .number v.value

/-! ## Text that stands for values -/

/-- A value in a format: hexadecimal behind `$` by default, or as `d`, `x`, `X`, `b` or `s` say. -/
def formatValue (format : Option String) : Value → Except SubstitutionError String
  | .number n =>
    match format with
    | none => .ok ("$" ++ Numeral.hexUpper n)
    | some "d" => .ok (Numeral.decimal n)
    | some "x" => .ok (Numeral.hexLower n)
    | some "X" => .ok (Numeral.hexUpper n)
    | some "b" => .ok (Numeral.binary n)
    | some other => .error (.invalidFormat other)
  | .text s =>
    match format with
    | none | some "s" => .ok s
    | some other => .error (.invalidFormat other)

/-- The text for what stands between two braces: a name, or a format and a name. -/
def interpolate (st : State) (inner : List Char) : Except SubstitutionError String :=
  let (format, name) :=
    match Text.splitOnce? ':' inner with
    | some (format, name) => (some (String.ofList (Text.trim format)), Text.trim name)
    | none => (none, Text.trim inner)
  let name := String.ofList name
  match st.lookup? name with
  | some value => formatValue format value
  | none => .error (.undefinedName name)

/-- The text for the character behind a backslash: `@` is the suffix of the current expansion,
`#` all arguments that are left, a digit one of them. -/
def escapeText (st : State) (c : Char) : Except SubstitutionError String :=
  let spelling := String.ofList ['\\', c]
  if c == '@' then
    match st.uniqueIds with
    | id :: _ => .ok s!"_{id}"
    | [] => .error .outsideExpansion
  else
    match st.frame? with
    | none => .error (.outsideMacro spelling)
    | some frame =>
      if c == '#' then .ok (",".intercalate frame.remaining)
      else
        match frame.arg? (c.toNat - '0'.toNat) with
        | some arg => .ok arg
        | none => .error (.missingArgument spelling)

end State

end Sm83Asm
