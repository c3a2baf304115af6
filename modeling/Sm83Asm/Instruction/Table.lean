import Sm83Asm.Text.Basic

set_option autoImplicit false

/-!
# Instruction tables

Every mnemonic has a list of variants, each with a pattern for every operand. The first variant
whose patterns all match is the one that is encoded, so the order of the variants matters.
-/

namespace Sm83Asm

/-! ## Operands -/

/-- Registers and register pairs. -/
inductive Register where
  | a | b | c | d | e | h | l
  | af | bc | de | hl | sp
deriving DecidableEq, Repr, Inhabited

/-- The spelling of a register. -/
def Register.name : Register → String
  | .a => "a"
  | .b => "b"
  | .c => "c"
  | .d => "d"
  | .e => "e"
  | .h => "h"
  | .l => "l"
  | .af => "af"
  | .bc => "bc"
  | .de => "de"
  | .hl => "hl"
  | .sp => "sp"

/-- Conditions of jumps, calls and returns. -/
inductive Condition where
  | nz | z | nc | c
deriving DecidableEq, Repr, Inhabited

/-- The spelling of a condition. -/
def Condition.name : Condition → String
  | .nz => "nz"
  | .z => "z"
  | .nc => "nc"
  | .c => "c"

/-- Registers that can hold an address, in brackets. -/
inductive Pointer where
  | bc | de | hl | hlIncrement | hlDecrement | c
deriving DecidableEq, Repr, Inhabited

/-- The spelling of a pointer between its brackets. -/
def Pointer.name : Pointer → String
  | .bc => "bc"
  | .de => "de"
  | .hl => "hl"
  | .hlIncrement => "hl+"
  | .hlDecrement => "hl-"
  | .c => "c"

/-- What an operand may look like. -/
inductive Pattern where
  | reg (register : Register)
  | cond (condition : Condition)
  /-- A pointer in brackets. -/
  | ind (pointer : Pointer)
  /-- A byte. -/
  | n8
  /-- A word. -/
  | n16
  /-- A signed byte. -/
  | e8
  /-- A jump target, encoded as a distance from the next instruction. -/
  | rel
  /-- A bit number, added into the opcode. -/
  | u3
  /-- A restart address, added into the opcode. -/
  | vector
  /-- An address in brackets. -/
  | indN16
  /-- An address of the top page in brackets, or its low byte. -/
  | ldhN8
  /-- An address of the top page in brackets, where the short form is wanted. -/
  | highN8
  /-- The stack pointer and a signed distance. -/
  | spE8
deriving DecidableEq, Repr, Inhabited

/-- One way to write an instruction, and its encoding. -/
structure Variant where
  operands : List Pattern
  /-- A byte in front of the opcode. -/
  lead : Option UInt8 := none
  opcode : UInt8
  /-- A byte behind the operands. -/
  trail : Option UInt8 := none
deriving DecidableEq, Repr, Inhabited

/-! ## Families of operands -/

/-- The eight byte operands, in the order of their codes. -/
def bytePatterns : List Pattern :=
  [.reg .b, .reg .c, .reg .d, .reg .e, .reg .h, .reg .l, .ind .hl, .reg .a]

/-- The byte operands with their codes. -/
def byteOperands : List (UInt8 × Pattern) :=
  [0, 1, 2, 3, 4, 5, 6, 7].zip bytePatterns

/-- The register pairs with their codes. -/
def pairs : List (UInt8 × Register) := [(0x00, .bc), (0x10, .de), (0x20, .hl), (0x30, .sp)]

/-- The register pairs that can be put on the stack, with their codes. -/
def stackPairs : List (UInt8 × Register) := [(0x00, .bc), (0x10, .de), (0x20, .hl), (0x30, .af)]

/-- The conditions with their codes. -/
def conditions : List (UInt8 × Condition) := [(0x00, .nz), (0x08, .z), (0x10, .nc), (0x18, .c)]

/-! ## Variants -/

/-- A variant of an instruction without a lead byte. -/
def plain (operands : List Pattern) (opcode : UInt8) : Variant := { operands, opcode }

/-- A variant of an instruction of the second page. -/
def paged (operands : List Pattern) (opcode : UInt8) : Variant :=
  { operands, opcode, lead := some 0xCB }

/-- Loads between byte operands, one destination after the other, each ending with the load of a
constant. -/
def byteLoads : List Variant :=
  byteOperands.flatMap fun (dst, target) =>
    (byteOperands.filter fun (src, _) => !(dst == 6 && src == 6)).map (fun (src, source) =>
      plain [target, source] (0x40 + dst * 8 + src)) ++
    [plain [target, .n8] (0x06 + dst * 8)]

/-- Loads of the accumulator through a pointer. -/
def pointerLoads : List Variant :=
  [(0x00, .bc), (0x10, .de), (0x20, .hlIncrement), (0x30, .hlDecrement)].flatMap
    fun (code, pointer) =>
      [plain [.ind pointer, .reg .a] (code + 0x02), plain [.reg .a, .ind pointer] (code + 0x0A)]

/-- The variants of `ld`. -/
def loads : List Variant :=
  byteLoads ++ pointerLoads ++
  [plain [.ind .c, .reg .a] 0xE2, plain [.reg .a, .ind .c] 0xF2] ++
  pairs.map (fun (code, pair) => plain [.reg pair, .n16] (0x01 + code)) ++
  [plain [.reg .sp, .reg .hl] 0xF9, plain [.reg .hl, .spE8] 0xF8,
    plain [.indN16, .reg .sp] 0x08, plain [.highN8, .reg .a] 0xE0, plain [.reg .a, .highN8] 0xF0,
    plain [.indN16, .reg .a] 0xEA, plain [.reg .a, .indN16] 0xFA]

/-- Increments and decrements: of the byte operands, then of the register pairs. -/
def steps (byteCode pairCode : UInt8) : List Variant :=
  byteOperands.map (fun (code, operand) => plain [operand] (byteCode + code * 8)) ++
  pairs.map (fun (code, pair) => plain [.reg pair] (pairCode + code))

/-- Arithmetic on the accumulator, which may be named or left out. -/
def arithmetic (k : UInt8) : List Variant :=
  byteOperands.map (fun (code, operand) => plain [.reg .a, operand] (0x80 + k * 8 + code)) ++
  [plain [.reg .a, .n8] (0xC6 + k * 8)] ++
  byteOperands.map (fun (code, operand) => plain [operand] (0x80 + k * 8 + code)) ++
  [plain [.n8] (0xC6 + k * 8)]

/-- Additions to register pairs. -/
def pairAdditions : List Variant :=
  pairs.map (fun (code, pair) => plain [.reg .hl, .reg pair] (0x09 + code)) ++
  [plain [.reg .sp, .e8] 0xE8]

/-- A transfer of control under each condition. -/
def conditional (operands : List Pattern) (opcode : UInt8) : List Variant :=
  conditions.map fun (code, condition) => plain (.cond condition :: operands) (opcode + code)

/-- Shifts of the byte operands. -/
def shifts (k : UInt8) : List Variant :=
  byteOperands.map fun (code, operand) => paged [operand] (k * 8 + code)

/-- Operations on one bit of the byte operands. -/
def bitOperations (opcode : UInt8) : List Variant :=
  byteOperands.map fun (code, operand) => paged [.u3, operand] (opcode + code)

/-- The variants of every mnemonic. -/
def instructionTable : List (String × List Variant) :=
  [ ("nop", [plain [] 0x00]),
    ("rlca", [plain [] 0x07]),
    ("rrca", [plain [] 0x0F]),
    ("rla", [plain [] 0x17]),
    ("rra", [plain [] 0x1F]),
    ("daa", [plain [] 0x27]),
    ("cpl", [plain [] 0x2F]),
    ("scf", [plain [] 0x37]),
    ("ccf", [plain [] 0x3F]),
    ("halt", [plain [] 0x76]),
    ("di", [plain [] 0xF3]),
    ("ei", [plain [] 0xFB]),
    ("reti", [plain [] 0xD9]),
    ("stop", [{ operands := [], opcode := 0x10, trail := some 0x00 }, plain [.n8] 0x10]),
    ("ld", loads),
    ("ldh", [plain [.ind .c, .reg .a] 0xE2, plain [.reg .a, .ind .c] 0xF2,
      plain [.ldhN8, .reg .a] 0xE0, plain [.reg .a, .ldhN8] 0xF0]),
    ("ldi", [plain [.ind .hl, .reg .a] 0x22, plain [.reg .a, .ind .hl] 0x2A]),
    ("ldd", [plain [.ind .hl, .reg .a] 0x32, plain [.reg .a, .ind .hl] 0x3A]),
    ("inc", steps 0x04 0x03),
    ("dec", steps 0x05 0x0B),
    ("add", pairAdditions ++ arithmetic 0),
    ("adc", arithmetic 1),
    ("sub", arithmetic 2),
    ("sbc", arithmetic 3),
    ("and", arithmetic 4),
    ("xor", arithmetic 5),
    ("or", arithmetic 6),
    ("cp", arithmetic 7),
    ("jr", plain [.rel] 0x18 :: conditional [.rel] 0x20),
    ("jp", plain [.reg .hl] 0xE9 :: plain [.n16] 0xC3 :: conditional [.n16] 0xC2),
    ("call", plain [.n16] 0xCD :: conditional [.n16] 0xC4),
    ("ret", plain [] 0xC9 :: conditional [] 0xC0),
    ("push", stackPairs.map fun (code, pair) => plain [.reg pair] (0xC5 + code)),
    ("pop", stackPairs.map fun (code, pair) => plain [.reg pair] (0xC1 + code)),
    ("rst", [plain [.vector] 0xC7]),
    ("rlc", shifts 0),
    ("rrc", shifts 1),
    ("rl", shifts 2),
    ("rr", shifts 3),
    ("sla", shifts 4),
    ("sra", shifts 5),
    ("swap", shifts 6),
    ("srl", shifts 7),
    ("bit", bitOperations 0x40),
    ("res", bitOperations 0x80),
    ("set", bitOperations 0xC0) ]

/-- The variants of a mnemonic in lower case. -/
def variants? (mnemonic : String) : Option (List Variant) :=
  instructionTable.lookup mnemonic

/-- Whether a word is a mnemonic, in either case. -/
def isMnemonic (word : String) : Bool :=
  (variants? (Text.lower word)).isSome

end Sm83Asm
