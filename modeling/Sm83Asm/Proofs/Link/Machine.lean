import Sm83Asm.Eval.Arithmetic
import Sm83Asm.Proofs.Bytes

set_option autoImplicit false

/-!
# The linker's stack machine

What a link-time program computes once addresses are known. The machine works on a stack of
32-bit numbers; symbols are found by their position in a list of names, and what it is told about
names and sections is a `World`. `depthAfter?` counts stack cells without running anything, and
`read?` gets a program back from its bytes.

Main statements: a program whose operands fit into four bytes is read back from its bytes
(`read?_bytes_of_fits`), and one that passes the count with all its symbols in the table always runs
to the end (`exists_run_of_depthAfter?`).
-/

namespace Sm83Asm.Link

/-! ## Running a program -/

/-- What a question to the linker is about. -/
inductive Subject where
  | symbol (name : String)
  | place (name : String)
  | here
deriving DecidableEq, Repr

/-- What the linker knows when it runs a program. -/
structure World where
  address : String → Int32
  bank : Subject → Int32
  size : Subject → Int32
  start : Subject → Int32
  /-- What the check for the top page makes of a value. -/
  topPage : Int32 → Int32

/-- The value of an operator between two operands; dividing by zero gives zero. -/
def binaryValue (op : BinaryOp) (a b : Int32) : Int32 :=
  match op.apply? a b with
  | some n => n
  | none => 0

/-- Carries out one instruction. There is no stack afterwards when a value is missing or a symbol
is not in the table. -/
def step (w : World) (names : List String) : Instr → List Int32 → Option (List Int32)
  | .binary op, b :: a :: stack => some (binaryValue op a b :: stack)
  | .neg, a :: stack => some (UnaryOp.neg.apply a :: stack)
  | .complement, a :: stack => some (UnaryOp.complement.apply a :: stack)
  | .not, a :: stack => some (UnaryOp.not.apply a :: stack)
  | .hramCheck, a :: stack => some (w.topPage a :: stack)
  | .int n, stack => some (n :: stack)
  | .address id, stack => names[id]?.map fun name => w.address name :: stack
  | .bankOfSymbol id, stack => names[id]?.map fun name => w.bank (.symbol name) :: stack
  | .sizeOfSymbol id, stack => names[id]?.map fun name => w.size (.symbol name) :: stack
  | .bankOfSection name, stack => some (w.bank (.place name) :: stack)
  | .sizeOfSection name, stack => some (w.size (.place name) :: stack)
  | .startOfSection name, stack => some (w.start (.place name) :: stack)
  | .bankHere, stack => some (w.bank .here :: stack)
  | .sizeHere, stack => some (w.size .here :: stack)
  | _, _ => none

theorem step_address (w : World) {names : List String} {id : Nat} {name : String}
    (stack : List Int32) (h : names[id]? = some name) :
    step w names (.address id) stack = some (w.address name :: stack) := by
  show (names[id]?.map fun name => w.address name :: stack) = _
  rw [h]
  rfl

theorem step_bankOfSymbol (w : World) {names : List String} {id : Nat} {name : String}
    (stack : List Int32) (h : names[id]? = some name) :
    step w names (.bankOfSymbol id) stack = some (w.bank (.symbol name) :: stack) := by
  show (names[id]?.map fun name => w.bank (.symbol name) :: stack) = _
  rw [h]
  rfl

theorem step_sizeOfSymbol (w : World) {names : List String} {id : Nat} {name : String}
    (stack : List Int32) (h : names[id]? = some name) :
    step w names (.sizeOfSymbol id) stack = some (w.size (.symbol name) :: stack) := by
  show (names[id]?.map fun name => w.size (.symbol name) :: stack) = _
  rw [h]
  rfl

/-- Carries out a program. -/
def run (w : World) (names : List String) : Program → List Int32 → Option (List Int32)
  | [], stack => some stack
  | i :: program, stack => (step w names i stack).bind (run w names program)

theorem run_append (w : World) (names : List String) (p q : Program) (stack : List Int32) :
    run w names (p ++ q) stack = (run w names p stack).bind (run w names q) := by
  induction p generalizing stack with
  | nil => rfl
  | cons i p ih =>
    cases h : step w names i stack with
    | none => simp [run, h]
    | some stack' => simp [run, h, ih]

/-! ## Counting stack cells -/

/-- The number of values that an instruction takes; every instruction gives one. -/
def Instr.takes : Instr → Nat
  | .binary _ => 2
  | .neg | .complement | .not | .hramCheck => 1
  | _ => 0

/-- The position of the symbol that an instruction refers to. -/
def Instr.symbol? : Instr → Option Nat
  | .address id | .bankOfSymbol id | .sizeOfSymbol id => some id
  | _ => none

/-- The height of the stack after a program that starts at a height; none when a value is
missing. -/
def depthAfter? : Nat → Program → Option Nat
  | n, [] => some n
  | n, i :: program => if i.takes ≤ n then depthAfter? (n - i.takes + 1) program else none

theorem depthAfter?_append (n : Nat) (p q : Program) :
    depthAfter? n (p ++ q) = (depthAfter? n p).bind fun m => depthAfter? m q := by
  induction p generalizing n with
  | nil => rfl
  | cons i p ih =>
    by_cases h : i.takes ≤ n
    · simp [depthAfter?, h, ih]
    · simp [depthAfter?, h]

/-- Every symbol of a program lies below a bound. -/
def SymbolsBelow (bound : Nat) (program : Program) : Prop :=
  ∀ i ∈ program, ∀ id, i.symbol? = some id → id < bound

/-- A program that takes no value it does not have and ends with one value more. -/
def PushesOne (program : Program) : Prop := ∀ n, depthAfter? n program = some (n + 1)

theorem exists_step_of_takes_le (w : World) (names : List String) (i : Instr)
    (stack : List Int32) (ht : i.takes ≤ stack.length)
    (hs : ∀ id, i.symbol? = some id → id < names.length) :
    ∃ stack', step w names i stack = some stack' ∧
      stack'.length = stack.length - i.takes + 1 := by
  have found : ∀ id, i.symbol? = some id → ∃ name, names[id]? = some name := fun id hid =>
    ⟨_, List.getElem?_eq_getElem (hs id hid)⟩
  cases i with
  | binary op =>
    match stack, ht with
    | b :: a :: stack, _ => exact ⟨_, rfl, by simp [Instr.takes]⟩
  | neg =>
    match stack, ht with
    | a :: stack, _ => exact ⟨_, rfl, by simp [Instr.takes]⟩
  | complement =>
    match stack, ht with
    | a :: stack, _ => exact ⟨_, rfl, by simp [Instr.takes]⟩
  | not =>
    match stack, ht with
    | a :: stack, _ => exact ⟨_, rfl, by simp [Instr.takes]⟩
  | hramCheck =>
    match stack, ht with
    | a :: stack, _ => exact ⟨_, rfl, by simp [Instr.takes]⟩
  | address id =>
    obtain ⟨name, hname⟩ := found id rfl
    exact ⟨_, step_address w stack hname, rfl⟩
  | bankOfSymbol id =>
    obtain ⟨name, hname⟩ := found id rfl
    exact ⟨_, step_bankOfSymbol w stack hname, rfl⟩
  | sizeOfSymbol id =>
    obtain ⟨name, hname⟩ := found id rfl
    exact ⟨_, step_sizeOfSymbol w stack hname, rfl⟩
  | int n => exact ⟨_, rfl, rfl⟩
  | bankOfSection name => exact ⟨_, rfl, rfl⟩
  | bankHere => exact ⟨_, rfl, rfl⟩
  | sizeOfSection name => exact ⟨_, rfl, rfl⟩
  | sizeHere => exact ⟨_, rfl, rfl⟩
  | startOfSection name => exact ⟨_, rfl, rfl⟩

/-- A program that passes the count runs to the end, whatever the linker knows. -/
theorem exists_run_of_depthAfter? (w : World) (names : List String) (program : Program)
    (stack : List Int32) {n : Nat} (hd : depthAfter? stack.length program = some n)
    (hs : SymbolsBelow names.length program) :
    ∃ stack', run w names program stack = some stack' ∧ stack'.length = n := by
  induction program generalizing stack with
  | nil =>
    simp only [depthAfter?, Option.some.injEq] at hd
    exact ⟨stack, rfl, hd⟩
  | cons i program ih =>
    by_cases ht : i.takes ≤ stack.length
    · obtain ⟨next, hstep, hlen⟩ := exists_step_of_takes_le w names i stack ht
        (hs i List.mem_cons_self)
      rw [depthAfter?, if_pos ht, ← hlen] at hd
      obtain ⟨stack', hrun, hn⟩ := ih next hd fun j hj => hs j (List.mem_cons_of_mem _ hj)
      exact ⟨stack', by rw [run, hstep]; exact hrun, hn⟩
    · rw [depthAfter?, if_neg ht] at hd
      exact absurd hd (by simp)

/-! ## Reading a program -/

/-- Every operator between two operands. -/
def binaryOps : List BinaryOp :=
  [.logicalOr, .logicalAnd, .equal, .notEqual, .less, .greater, .lessEqual, .greaterEqual, .add,
    .sub, .bitAnd, .bitOr, .bitXor, .shiftLeft, .shiftRight, .mul, .div, .mod]

/-- Reads the instruction with an opcode. -/
def readOperand (code : UInt8) : Bytes.Reader Instr :=
  match code with
  | 0x05 => pure .neg
  | 0x13 => pure .complement
  | 0x23 => pure .not
  | 0x50 => .bankOfSymbol <$> Bytes.long
  | 0x51 => .bankOfSection <$> Bytes.text
  | 0x52 => pure .bankHere
  | 0x53 => .sizeOfSection <$> Bytes.text
  | 0x54 => .startOfSection <$> Bytes.text
  | 0x55 => pure .sizeHere
  | 0x56 => .sizeOfSymbol <$> Bytes.long
  | 0x60 => pure .hramCheck
  | 0x80 => (fun n => .int n.toInt32) <$> Bytes.word
  | 0x81 => .address <$> Bytes.long
  | _ => StateT.lift ((binaryOps.find? fun op => binaryCode op == code).map .binary)

/-- Reads an instruction. -/
def readInstr : Bytes.Reader Instr := do
  let code ← Bytes.byte
  readOperand code

/-- Reads at most `fuel` instructions that take up all the bytes. -/
def readWithin? : Nat → List UInt8 → Option Program
  | _, [] => some []
  | 0, _ :: _ => none
  | fuel + 1, b :: bs =>
    (readInstr.run (b :: bs)).bind fun (i, rest) => (readWithin? fuel rest).map (i :: ·)

/-- The program with some bytes. -/
def read? (bytes : List UInt8) : Option Program := readWithin? bytes.length bytes

/-- The name in an instruction has a length that four bytes can hold. -/
def Instr.NameFits : Instr → Prop
  | .bankOfSection name | .sizeOfSection name | .startOfSection name =>
    name.utf8ByteSize < UInt32.size
  | _ => True

/-- The instruction that is read from the bytes of one: a position is written in four bytes. -/
def Instr.reread : Instr → Instr
  | .address id => .address (id % UInt32.size)
  | .bankOfSymbol id => .bankOfSymbol (id % UInt32.size)
  | .sizeOfSymbol id => .sizeOfSymbol (id % UInt32.size)
  | i => i

theorem reads_instr {i : Instr} (h : i.NameFits) : Bytes.Reads readInstr i.bytes i.reread := by
  cases i with
  | binary op =>
    have hop : Bytes.Reads (readOperand (binaryCode op)) [] (.binary op) := by
      intro rest
      cases op <;> rfl
    exact (Bytes.reads_byte _).bind hop
  | neg => exact (Bytes.reads_byte 0x05).bind (Bytes.Reads.pure _)
  | complement => exact (Bytes.reads_byte 0x13).bind (Bytes.Reads.pure _)
  | not => exact (Bytes.reads_byte 0x23).bind (Bytes.Reads.pure _)
  | bankHere => exact (Bytes.reads_byte 0x52).bind (Bytes.Reads.pure _)
  | sizeHere => exact (Bytes.reads_byte 0x55).bind (Bytes.Reads.pure _)
  | hramCheck => exact (Bytes.reads_byte 0x60).bind (Bytes.Reads.pure _)
  | int n =>
    have hn : n.toUInt32.toInt32 = n := Int32.toInt32_toUInt32 n
    have key := (Bytes.reads_word n.toUInt32).map fun m => Instr.int m.toInt32
    rw [hn] at key
    exact (Bytes.reads_byte 0x80).bind key
  | address id =>
    exact (Bytes.reads_byte 0x81).bind ((Bytes.reads_long_mod id).map Instr.address)
  | bankOfSymbol id =>
    exact (Bytes.reads_byte 0x50).bind ((Bytes.reads_long_mod id).map Instr.bankOfSymbol)
  | sizeOfSymbol id =>
    exact (Bytes.reads_byte 0x56).bind ((Bytes.reads_long_mod id).map Instr.sizeOfSymbol)
  | bankOfSection name =>
    exact (Bytes.reads_byte 0x51).bind ((Bytes.reads_text h).map Instr.bankOfSection)
  | sizeOfSection name =>
    exact (Bytes.reads_byte 0x53).bind ((Bytes.reads_text h).map Instr.sizeOfSection)
  | startOfSection name =>
    exact (Bytes.reads_byte 0x54).bind ((Bytes.reads_text h).map Instr.startOfSection)

theorem exists_bytes_eq_cons (i : Instr) : ∃ b bs, i.bytes = b :: bs := by
  cases i <;> exact ⟨_, _, rfl⟩

theorem readWithin?_bytes (program : Program) (h : ∀ i ∈ program, i.NameFits) {fuel : Nat}
    (hf : program.length ≤ fuel) :
    readWithin? fuel (bytes program) = some (program.map Instr.reread) := by
  induction program generalizing fuel with
  | nil => cases fuel <;> rfl
  | cons i program ih =>
    -- Every instruction has at least one byte, so a level is left for it.
    obtain ⟨fuel, rfl⟩ : ∃ m, fuel = m + 1 := ⟨fuel - 1, by simp at hf; omega⟩
    obtain ⟨b, bs, hb⟩ := exists_bytes_eq_cons i
    have hi := reads_instr (h i List.mem_cons_self) (bytes program)
    have hrest : readWithin? fuel (bytes program) = some (program.map Instr.reread) :=
      ih (fun j hj => h j (List.mem_cons_of_mem _ hj)) (by simpa using hf)
    have hcons : bytes (i :: program) = b :: (bs ++ bytes program) := by
      show i.bytes ++ bytes program = _
      rw [hb]
      rfl
    rw [hb] at hi
    rw [hcons, readWithin?]
    simp only [List.cons_append] at hi
    rw [hi]
    simp [hrest]

theorem length_le_length_bytes (program : Program) : program.length ≤ (bytes program).length := by
  induction program with
  | nil => simp
  | cons i program ih =>
    obtain ⟨b, bs, hb⟩ := exists_bytes_eq_cons i
    show program.length + 1 ≤ (i.bytes ++ bytes program).length
    rw [hb]
    simp
    omega

/-- A program is read back from its bytes, its positions up to multiples of `UInt32.size`. -/
theorem read?_bytes (program : Program) (h : ∀ i ∈ program, i.NameFits) :
    read? (bytes program) = some (program.map Instr.reread) :=
  readWithin?_bytes program h (length_le_length_bytes program)

theorem takes_reread (i : Instr) : i.reread.takes = i.takes := by
  cases i <;> rfl

theorem depthAfter?_map_reread (n : Nat) (program : Program) :
    depthAfter? n (program.map Instr.reread) = depthAfter? n program := by
  induction program generalizing n with
  | nil => rfl
  | cons i program ih => simp only [List.map_cons, depthAfter?, takes_reread, ih]

/-- No position gets larger. -/
theorem SymbolsBelow.map_reread {bound : Nat} {program : Program} (h : SymbolsBelow bound program) :
    SymbolsBelow bound (program.map Instr.reread) := by
  intro j hj id hid
  obtain ⟨i, hi, rfl⟩ := List.mem_map.1 hj
  have hold : ∃ old, i.symbol? = some old ∧ id = old % UInt32.size := by
    cases i <;> simp_all [Instr.reread, Instr.symbol?]
  obtain ⟨old, hsymbol, rfl⟩ := hold
  exact Nat.lt_of_le_of_lt (Nat.mod_le _ _) (h i hi old hsymbol)

/-- The operand of an instruction fits into the four bytes that it or its length is written in. -/
def Instr.Fits (i : Instr) : Prop := i.NameFits ∧ ∀ id, i.symbol? = some id → id < UInt32.size

theorem reread_of_fits {i : Instr} (h : i.Fits) : i.reread = i := by
  cases i with
  | address id => exact congrArg Instr.address (Nat.mod_eq_of_lt (h.2 id rfl))
  | bankOfSymbol id => exact congrArg Instr.bankOfSymbol (Nat.mod_eq_of_lt (h.2 id rfl))
  | sizeOfSymbol id => exact congrArg Instr.sizeOfSymbol (Nat.mod_eq_of_lt (h.2 id rfl))
  | _ => rfl

/-- A program is read back from its bytes when its operands fit into them. -/
theorem read?_bytes_of_fits (program : Program) (h : ∀ i ∈ program, i.Fits) :
    read? (bytes program) = some program := by
  have hmap : program.map Instr.reread = program.map id :=
    List.map_congr_left fun i hi => reread_of_fits (h i hi)
  rw [read?_bytes program fun i hi => (h i hi).1, hmap, List.map_id]

end Sm83Asm.Link
