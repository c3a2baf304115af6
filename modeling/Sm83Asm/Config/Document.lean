import Sm83Asm.Config
import Sm83Asm.Toml.Parser

set_option autoImplicit false

/-!
# Configuration documents

A configuration is written in TOML. Every setting may be left out, unknown settings are refused,
and the first fault in the order of the document is the one that is reported. Bytes, seeds and
defined numbers may also be texts with a hexadecimal number behind `$`, a binary one behind `%` or
a decimal one.
-/

namespace Sm83Asm

/-- Why a text is no number in a base. -/
inductive NumeralFault where
  | empty
  | invalidDigit
  | tooLarge
  | tooSmall
deriving DecidableEq, Repr

/-- The wording of a fault in a number. -/
def NumeralFault.message : NumeralFault → String
  | .empty => "cannot parse integer from empty string"
  | .invalidDigit => "invalid digit found in string"
  | .tooLarge => "number too large to fit in target type"
  | .tooSmall => "number too small to fit in target type"

/-- Why a configuration is refused. -/
inductive ConfigError where
  /-- The text is not TOML, or a setting is unknown or of the wrong type. -/
  | malformed
  | notAByte (n : Int)
  | not32Bits (n : Int)
  | defineNot32Bits (name : String) (n : Int)
  | invalidNumeral (text : String) (base : Nat) (fault : NumeralFault)
deriving DecidableEq, Repr

/-- The wording of an error about a number. -/
def ConfigError.message? : ConfigError → Option String
  | .malformed => none
  | .notAByte n => some s!"{n} does not fit in a byte"
  | .not32Bits n => some s!"{n} does not fit in 32 bits"
  | .defineNot32Bits name n => some s!"{name} = {n} does not fit in 32 bits"
  | .invalidNumeral text base fault =>
    let reason := fault.message
    some s!"{text} is not a valid base {base} value: {reason}"

namespace ConfigDocument

/-- Digits of a number of 64 bits, read from the left; the number grows away from zero. -/
def signedDigits (base : Nat) (negative : Bool) (n : Int) : List Char → Except NumeralFault Int
  | [] => .ok n
  | c :: cs =>
    match (Toml.hexValue? [c]).filter (· < base) with
    | none => .error .invalidDigit
    | some d =>
      let next := if negative then n * base - d else n * base + d
      if Toml.inRange next then signedDigits base negative next cs
      else .error (if negative then .tooSmall else .tooLarge)

/-- A number of 64 bits in a base, perhaps behind a sign. -/
def signedNumber (base : Nat) (cs : List Char) : Except NumeralFault Int :=
  match cs with
  | [] => .error .empty
  | ['+'] | ['-'] => .error .invalidDigit
  | _ =>
    let (negative, digits) := Toml.splitSign cs
    signedDigits base negative 0 digits

/-- A number in the base that its first character says. -/
def basedNumber (text : String) : Except ConfigError Int :=
  let (base, digits) := match text.toList with
    | '$' :: digits => (16, digits)
    | '%' :: digits => (2, digits)
    | digits => (10, digits)
  (signedNumber base digits).mapError (.invalidNumeral text base)

/-- A number, or a text that may still be one. -/
inductive Based where
  | int (n : Int)
  | text (s : String)

/-- A number or a text. -/
def based : Toml.Value → Except ConfigError Based
  | .integer n => .ok (.int n)
  | .string s => .ok (.text s)
  | _ => .error .malformed

/-- The number that is meant. -/
def Based.number : Based → Except ConfigError Int
  | .int n => .ok n
  | .text s => basedNumber s

/-- A truth value. -/
def boolean : Toml.Value → Except ConfigError Bool
  | .boolean b => .ok b
  | _ => .error .malformed

/-- A number that is not negative. -/
def natural : Toml.Value → Except ConfigError Nat
  | .integer n => if 0 ≤ n then .ok n.toNat else .error .malformed
  | _ => .error .malformed

/-- A text. -/
def text : Toml.Value → Except ConfigError String
  | .string s => .ok s
  | _ => .error .malformed

/-- A list of texts. -/
def texts : Toml.Value → Except ConfigError (List String)
  | .array items => items.mapM text
  | .tables [] => .ok []
  | _ => .error .malformed

/-- A number from zero below a bound. -/
def bounded (limit : Nat) (error : Int → ConfigError) (v : Toml.Value) :
    Except ConfigError Nat := do
  let b ← based v
  let n ← b.number
  if 0 ≤ n && n < limit then return n.toNat else .error (error n)

/-- A defined number: any that has 32 bits with or without a sign. -/
def definedNumber (name : String) (b : Based) : Except ConfigError Int32 := do
  let n ← b.number
  if -0x80000000 ≤ n && n < 0x100000000 then return Int32.ofInt n
  else .error (.defineNot32Bits name n)

/-- Defined numbers. All of them are numbers or texts before any text is read as a number. A date
in their place is taken for the text of one number, and no date is written like one. -/
def defines : Toml.Value → Except ConfigError (Table Int32)
  | .table _ entries => do
    let raw ← entries.mapM fun (name, v) => return (name, ← based v)
    let numbers ← raw.mapM fun (name, b) => return (name, ← definedNumber name b)
    return .ofList numbers
  | .datetime d => do
    let _ ← basedNumber d.render
    .error .malformed
  | _ => .error .malformed

/-- Changes one setting. -/
def setting (c : Config) (name : String) (v : Toml.Value) : Except ConfigError Config :=
  match name with
  | "compatibility" => return { c with compatibility := ← boolean v }
  | "include" => return { c with searchDirs := ← texts v }
  | "pad" => return { c with pad := UInt8.ofNat (← bounded 0x100 .notAByte v) }
  | "halt_nop" => return { c with haltNop := ← boolean v }
  | "optimize_ldh" => return { c with optimizeLdh := ← boolean v }
  | "max_depth" => return { c with maxDepth := ← natural v }
  | "max_substitutions" => return { c with maxSubstitutions := ← natural v }
  | "seed" => return { c with seed := UInt32.ofNat (← bounded 0x100000000 .not32Bits v) }
  | "define" => return { c with defines := ← defines v }
  | _ => .error .malformed

end ConfigDocument

/-- Reads a configuration. -/
def Config.ofToml (text : String) : Except ConfigError Config :=
  match Toml.parse? text with
  | none => .error .malformed
  | some entries => entries.foldlM (fun c (name, v) => ConfigDocument.setting c name v) {}

end Sm83Asm
