import Sm83Asm.Line
import Sm83Asm.Link.Compile
import Sm83Asm.Numeral

set_option autoImplicit false

/-!
# Options and messages

Changing the options, saving and restoring them, and the keywords that print or report text.
-/

namespace Sm83Asm

/-- The options after a change such as `pFF`, `!h` or `b.X`. -/
def Options.change? (o : Options) : List Char → Option Options
  | 'p' :: value =>
    match Numeral.value? o (String.ofList value) with
    | some n => if 0 ≤ n && n ≤ 255 then some { o with pad := n.toUInt32.toUInt8 } else none
    | none => none
  | ['h'] => some { o with haltNop := false }
  | ['L'] => some { o with optimizeLdh := false }
  | ['!', 'h'] => some { o with haltNop := true }
  | ['!', 'L'] => some { o with optimizeLdh := true }
  | 'b' :: digits => o.withBinaryDigits? digits
  | 'g' :: digits => o.withPixelDigits? digits
  | _ => none

namespace State

/-- Makes one change of the options. -/
def changeOption (st : State) (arg : Token) : State :=
  match st.options.change? arg.text.toList with
  | some options => { st with options }
  | none => st.fault (.invalidOption arg.text) arg

/-- `OPT`. -/
def changeOptions (st : State) (args : List Token) : State := args.foldl changeOption st

/-- `PUSHO`: saves the options and changes them. -/
def pushOptions (st : State) (args : List Token) : State :=
  { st with savedOptions := st.options :: st.savedOptions }.changeOptions args

/-- `POPO`: goes back to the options that were saved last. -/
def popOptions (st : State) (word : Token) : State :=
  match st.savedOptions with
  | [] => st.fault (.unopened .popo .pusho) word
  | options :: outer => { st with options, savedOptions := outer }

/-! ## Messages -/

/-- Adds to the printed text. -/
def print (st : State) (s : String) : State := { st with printed := st.printed ++ s }

/-- `PRINTT`, `PRINTV`, `PRINTI` and `PRINTF`: text, hexadecimal, decimal and fixed-point. -/
def printValue (st : State) (keyword : Keyword) (e : Expr) : State :=
  match keyword with
  | .printt =>
    let (s, st) := st.text e
    st.print s
  | .printv =>
    let (n, st) := st.number e
    st.print ("$" ++ Numeral.hexUpper n)
  | .printi =>
    let (n, st) := st.number e
    st.print (Numeral.decimal n)
  | _ =>
    let (n, st) := st.number e
    st.print (Numeral.fixedDecimal n)

/-- `WARN` and `FAIL`. -/
def userMessage (st : State) (keyword : Keyword) (word : Token) (e : Expr) : State :=
  let (message, st) := st.text e
  st.fault (if keyword == .warn then .userWarning message else .userFailure message) word

/-- `RESEED`: starts the random source anew. -/
def reseed (st : State) (e : Expr) : State :=
  let (seed, st) := st.number e
  { st with random := .ofSeed seed.toUInt32 }

end State

end Sm83Asm
