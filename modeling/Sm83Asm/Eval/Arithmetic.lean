import Sm83Asm.Expr
import Sm83Asm.Text.Case
import Sm83Asm.Vocabulary

set_option autoImplicit false

/-!
# Arithmetic of expressions

What the operators and the pure functions compute. Numbers have 32 bits and wrap, truth is one and
falsehood zero, and shift amounts count modulo 32. Fixed-point numbers count 65536ths.
-/

namespace Sm83Asm

/-- One for true and zero for false. -/
def truth (b : Bool) : Int32 := if b then 1 else 0

/-- The value of an operator in front of its operand. -/
def UnaryOp.apply : UnaryOp → Int32 → Int32
  | .neg, n => -n
  | .plus, n => n
  | .not, n => truth (n == 0)
  | .complement, n => ~~~n

/-- The value of an operator between two operands; there is none for a division by zero. -/
def BinaryOp.apply? (op : BinaryOp) (a b : Int32) : Option Int32 :=
  match op with
  | .add => some (a + b)
  | .sub => some (a - b)
  | .mul => some (a * b)
  | .div => if b == 0 then none else some (a / b)
  | .mod => if b == 0 then none else some (a % b)
  | .shiftLeft => some (a <<< b)
  | .shiftRight => some (a >>> b)
  | .bitAnd => some (a &&& b)
  | .bitOr => some (a ||| b)
  | .bitXor => some (a ^^^ b)
  | .logicalAnd => some (truth (a != 0 && b != 0))
  | .logicalOr => some (truth (a != 0 || b != 0))
  | .equal => some (truth (a == b))
  | .notEqual => some (truth (a != b))
  | .less => some (truth (a < b))
  | .greater => some (truth (b < a))
  | .lessEqual => some (truth (a ≤ b))
  | .greaterEqual => some (truth (b ≤ a))

/-- The second lowest byte. -/
def highByte (n : Int32) : Int32 := (n >>> 8) &&& 0xFF

/-- The lowest byte. -/
def lowByte (n : Int32) : Int32 := n &&& 0xFF

/-! ## Fixed-point numbers -/

/-- The product of two fixed-point numbers, rounded down. -/
def fixedMul (a b : Int32) : Int32 := Int32.ofInt (a.toInt * b.toInt / 65536)

/-- The quotient of two fixed-point numbers, rounded toward zero; there is none for a division by
zero. -/
def fixedDiv? (a b : Int32) : Option Int32 :=
  if b == 0 then none else some (Int32.ofInt ((a.toInt * 65536).tdiv b.toInt))

/-- A fixed-point number without its fraction. -/
def fixedFloor (n : Int32) : Int32 := n &&& (-65536)

/-- The next whole fixed-point number. -/
def fixedCeil (n : Int32) : Int32 := fixedFloor (n + 0xFFFF)

/-- The nearest whole fixed-point number, halves going up. -/
def fixedRound (n : Int32) : Int32 := fixedFloor (n + 0x8000)

/-! ## Texts -/

/-- The sign of the comparison of two texts by their characters. -/
def compareText (a b : String) : Int32 :=
  if a < b then -1 else if a == b then 0 else 1

/-- The position from one of the first occurrence of a text, and zero if there is none. -/
def positionOf (haystack needle : String) : Int32 :=
  match Text.find? needle.toList haystack.toList with
  | some n => Int32.ofNat n + 1
  | none => 0

/-- Number of characters in front of a position from one; positions below one count as one. -/
def skipOf (start : Int32) : Nat := start.toInt.toNat - 1

/-- The characters from a position on, at most `length` of them when a length is given. -/
def subText (s : String) (start : Int32) (length : Option Int32) : String :=
  let cs := s.toList.drop (skipOf start)
  String.ofList <| match length with
    | some n => cs.take n.toInt.toNat
    | none => cs

end Sm83Asm
