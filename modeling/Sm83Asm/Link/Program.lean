import Sm83Asm.Expr

set_option autoImplicit false

/-!
# Link-time programs

What cannot be computed before addresses are fixed is left to the linker as a program for a stack
machine in postfix order. This module holds the instructions of that machine and their bytes:
one byte of opcode, then, for instructions with an operand, four bytes of number or of length and
the bytes of a name.
-/

namespace Sm83Asm.Link

/-- Instructions of the linker's stack machine. -/
inductive Instr where
  /-- Pops two values and pushes the result of an operator. -/
  | binary (op : BinaryOp)
  | neg
  | complement
  | not
  /-- Pushes a number. -/
  | int (value : Int32)
  /-- Pushes the address of a symbol. -/
  | address (id : Nat)
  | bankOfSymbol (id : Nat)
  | bankOfSection (name : String)
  | bankHere
  | sizeOfSymbol (id : Nat)
  | sizeOfSection (name : String)
  | sizeHere
  | startOfSection (name : String)
  /-- Checks that the value lies in the top page and keeps its low byte. -/
  | hramCheck
deriving DecidableEq, Repr, Inhabited

/-- A program of the linker's stack machine. -/
abbrev Program := List Instr

/-- The opcode of a binary operator. -/
def binaryCode : BinaryOp → UInt8
  | .add => 0x00
  | .sub => 0x01
  | .mul => 0x02
  | .div => 0x03
  | .mod => 0x04
  | .bitOr => 0x10
  | .bitAnd => 0x11
  | .bitXor => 0x12
  | .logicalAnd => 0x21
  | .logicalOr => 0x22
  | .equal => 0x30
  | .notEqual => 0x31
  | .greater => 0x32
  | .less => 0x33
  | .greaterEqual => 0x34
  | .lessEqual => 0x35
  | .shiftLeft => 0x40
  | .shiftRight => 0x41

/-- The four bytes of a word, lowest first. -/
def littleEndian (n : UInt32) : List UInt8 :=
  [n.toUInt8, (n >>> 8).toUInt8, (n >>> 16).toUInt8, (n >>> 24).toUInt8]

/-- A name behind its length in bytes. -/
def nameBytes (name : String) : List UInt8 :=
  littleEndian (UInt32.ofNat name.utf8ByteSize) ++ Text.utf8 name

/-- The bytes of an instruction. -/
def Instr.bytes : Instr → List UInt8
  | .binary op => [binaryCode op]
  | .neg => [0x05]
  | .complement => [0x13]
  | .not => [0x23]
  | .bankOfSymbol id => 0x50 :: littleEndian (UInt32.ofNat id)
  | .bankOfSection name => 0x51 :: nameBytes name
  | .bankHere => [0x52]
  | .sizeOfSection name => 0x53 :: nameBytes name
  | .startOfSection name => 0x54 :: nameBytes name
  | .sizeHere => [0x55]
  | .sizeOfSymbol id => 0x56 :: littleEndian (UInt32.ofNat id)
  | .hramCheck => [0x60]
  | .int value => 0x80 :: littleEndian value.toUInt32
  | .address id => 0x81 :: littleEndian (UInt32.ofNat id)

/-- The bytes of a program. -/
def bytes (program : Program) : List UInt8 :=
  program.flatMap Instr.bytes

end Sm83Asm.Link
