import Sm83Asm.Instruction.Operand
import Sm83Asm.Link.Compile

set_option autoImplicit false

/-!
# Encoding instructions

An instruction is its lead byte, the opcode into which bit numbers and restart addresses are
added, the bytes of its operands and its trailing byte. Operands that are not known yet are left
as zeros with a patch.

Expressions wrap around. The arithmetic that is done here with the numbers of operands does not mean
to: it is noted when it leaves the range of its type.
-/

namespace Sm83Asm

/-! ## Arithmetic that can overflow -/

/-- The result of arithmetic with numbers of a fixed width: the number that it wraps around to, and
whether the exact result is out of range. -/
structure Checked (α : Type) where
  value : α
  overflowed : Bool

namespace Checked

/-- A number that is known without arithmetic. -/
def exact {α : Type} (a : α) : Checked α := ⟨a, false⟩

/-- The sum of two numbers of 32 bits. -/
def sum (a b : Int32) : Checked Int32 := ⟨a + b, a.toBitVec.saddOverflow b.toBitVec⟩

/-- The difference of two numbers of 32 bits. -/
def difference (a b : Int32) : Checked Int32 := ⟨a - b, a.toBitVec.ssubOverflow b.toBitVec⟩

/-- The sum of two bytes. -/
def byteSum (a b : UInt8) : Checked UInt8 := ⟨a + b, a.toBitVec.uaddOverflow b.toBitVec⟩

/-- The product of two bytes. -/
def byteProduct (a b : UInt8) : Checked UInt8 := ⟨a * b, a.toBitVec.umulOverflow b.toBitVec⟩

end Checked

/-- Goes on with the result of arithmetic, and notes whether it overflowed. -/
def Act.checked {α : Type} (result : Checked α) : Act Emission α :=
  Act.modifyGet fun s =>
    (result.value, { s with overflowed := s.overflowed || result.overflowed })

/-! ## Operands -/

/-- The bytes of a word, lowest first. -/
def wordBytes (n : Int32) : List UInt8 := [n.toUInt32.toUInt8, (n.toUInt32 >>> 8).toUInt8]

/-- What an operand contributes to an instruction. -/
structure OperandCode where
  /-- What is added to the opcode. -/
  addend : UInt8 := 0
  /-- What follows the opcode. -/
  bytes : List UInt8 := []

namespace Scope

/-- The byte of an operand, which must lie between two bounds. -/
def byteOperand (sc : Scope) (lo hi : Int32) (offset : Nat) (e : Expr) : Act Emission UInt8 := do
  let n ← sc.numberOrPatch .byte offset e
  if !(lo ≤ n && n ≤ hi) then
    Act.fault (.tooWide n 8) e.token
  return n.toUInt32.toUInt8

/-- The bytes of an operand of 16 bits. -/
def wordOperand (sc : Scope) (offset : Nat) (e : Expr) : Act Emission (List UInt8) := do
  let n ← sc.numberOrPatch .word offset e
  if !(-32768 ≤ n && n ≤ 65535) then
    Act.fault (.tooWide n 16) e.token
  return wordBytes n

/-- The offset of a jump target in the open section: a place in the section, or a constant address
when the section is fixed. -/
def jumpTarget? (sc : Scope) (e : Expr) : Act Random (Option (Checked Int32)) := do
  match ← sc.target? e with
  | some target => return some (.exact target)
  | none => do
    let address ← sc.constant? e
    return match sc.state.section?.bind Section.fixedAddress, address with
      | some start, some address => some (.difference address (Int32.ofNat start.toNat))
      | _, _ => none

/-- The distance of a jump, counted from the byte behind its operand. -/
def jumpOperand (sc : Scope) (offset : Nat) (e : Expr) : Act Emission UInt8 := do
  let next ← Act.checked (.sum (Int32.ofNat offset) 1)
  match ← Act.drawing (sc.jumpTarget? e) with
  | none => do
    sc.defer .jump offset e
    return 0
  | some target => do
    let target ← Act.checked target
    let distance ← Act.checked (.difference target next)
    if !(-128 ≤ distance && distance ≤ 127) then
      Act.fault (.jumpTooFar distance) e.token
    return distance.toUInt32.toUInt8

/-- The code of an operand of the top page. -/
def topPageOperand (sc : Scope) (offset : Nat) (e : Expr) : Act Emission UInt8 := do
  match ← Act.drawing (sc.constant? e) with
  | some n => return n.toUInt32.toUInt8
  | none => do
    let _ ← sc.topPageOrPatch offset e
    return 0

/-- The code of an operand that fits a pattern and whose bytes come to lie at `offset`. -/
def operandCode (sc : Scope) (offset : Nat) (pattern : Pattern) (e : Expr) :
    Act Emission OperandCode :=
  match pattern with
  | .reg _ | .cond _ | .ind _ => return {}
  | .u3 => do
    let n ← Act.drawing (sc.number e)
    let addend ← Act.checked (.byteProduct n.toUInt32.toUInt8 8)
    return { addend }
  | .vector => do
    let n ← Act.drawing (sc.number e)
    return { addend := n.toUInt32.toUInt8 }
  | .n8 => do
    let byte ← sc.byteOperand (-128) 255 offset e
    return { bytes := [byte] }
  | .e8 => do
    let byte ← sc.byteOperand (-128) 127 offset e
    return { bytes := [byte] }
  | .spE8 =>
    match e with
    | .binary op t _ r => do
      let byte ← sc.byteOperand (-128) 127 offset (if op == .sub then .unary .neg t r else r)
      return { bytes := [byte] }
    | _ => return {}
  | .n16 => do
    let bytes ← sc.wordOperand offset e
    return { bytes }
  | .indN16 =>
    match e.bracketed? with
    | none => return {}
    | some inner => do
      let bytes ← sc.wordOperand offset inner
      return { bytes }
  | .ldhN8 | .highN8 =>
    match e.bracketed? with
    | none => return {}
    | some inner => do
      let byte ← sc.topPageOperand offset inner
      return { bytes := [byte] }
  | .rel => do
    let byte ← sc.jumpOperand offset e
    return { bytes := [byte] }

/-- The codes of operands, one after the other, the first of which comes to lie at `offset`. At most
one operand of an instruction adds to the opcode. -/
def operandCodes (sc : Scope) (offset : Nat) :
    List Pattern → List Expr → Act Emission OperandCode
  | p :: ps, e :: es => do
    let code ← sc.operandCode offset p e
    let rest ← sc.operandCodes (offset + code.bytes.length) ps es
    return { addend := code.addend + rest.addend, bytes := code.bytes ++ rest.bytes }
  | _, _ => return {}

/-- The bytes of an instruction at the end of the open section. -/
def encode (sc : Scope) (word : Token) (args : List Expr) :
    Act Emission (Option (List UInt8)) := do
  let mnemonic := Text.lower word.text
  match ← Act.drawing (sc.selectVariant mnemonic args) with
  | none => do
    Act.fault (.noVariant mnemonic) word
    return none
  | some variant => do
    let lead := variant.lead.toList
    let start := sc.state.offset?.getD 0
    let code ← sc.operandCodes (start + lead.length + 1) variant.operands args
    let nop := if mnemonic == "halt" && sc.state.options.haltNop then [0x00] else []
    let opcode ← Act.checked (.byteSum variant.opcode code.addend)
    return some (lead ++ opcode :: code.bytes ++ variant.trail.toList ++ nop)

end Scope

end Sm83Asm
