import Sm83Asm.Eval.Constant

set_option autoImplicit false

/-!
# Compiling for the linker

An expression that is not constant becomes a program for the linker. Constant parts are computed
at once; names become references to symbols, which are added to the table of symbols as needed.
What cannot be compiled is reported and counts as zero, so that every program leaves one value.

Programs refer to symbols by their position in the table of symbols. A name gets its position the
first time it is referred to and keeps it; a name that is no label yet is taken for an import until
the end of the assembly.
-/

namespace Sm83Asm

/-! ## Symbols -/

/-- What the linker learns about a label. -/
def Label.kind (label : Label) : SymbolKind := if label.exported then .exported else .localOnly

/-- The symbol of a label. -/
def Label.toSymbol (label : Label) (id : Nat) (name : String) : Symbol :=
  { id, name, kind := label.kind, file := label.file, line := label.startLine,
    place := some label.place, value := Int32.ofNat label.offset }

namespace State

/-- The position of a symbol in a table, which gains a new entry when the name is not in it. -/
def symbolIn (symbols : Table Symbol) (name : String) (entry : Nat → Symbol) :
    Nat × Table Symbol :=
  match symbols.indexOf? name with
  | some id => (id, symbols)
  | none => (symbols.size, symbols.insert name (entry symbols.size))

/-- The position of a name: the symbol of a label, or else an import. -/
def symbolId (st : State) (symbols : Table Symbol) (name : String) : Nat × Table Symbol :=
  symbolIn symbols name fun id =>
    match st.labels.get? name with
    | some label => label.toSymbol id name
    | none =>
      { id, name, kind := .imported, file := st.file, line := st.line, place := none, value := 0 }

/-- The position of the symbol for a place in a section. -/
def locationId (st : State) (symbols : Table Symbol) (place : String) (offset : Nat) :
    Nat × Table Symbol :=
  let name := s!"@{place}:{offset}"
  symbolIn symbols name fun id =>
    { id, name, kind := .localOnly, file := st.file, line := st.line, place := some place,
      value := Int32.ofNat offset }

/-- Brings the symbol of a label up to date. -/
def syncSymbol (st : State) (symbols : Table Symbol) (name : String) (label : Label) :
    Table Symbol :=
  (st.symbolId symbols name).2.modify name fun s => label.toSymbol s.id s.name

/-- Brings the symbols of all labels up to date. -/
def syncSymbols (st : State) : State :=
  { st with
    symbols := st.labels.entries.foldl
      (fun symbols (name, label) => st.syncSymbol symbols name label) st.symbols }

end State

/-! ## Programs -/

/-- What compiling can change. -/
structure Linkage where
  random : Random
  symbols : Table Symbol

/-- What placing bytes can change. -/
structure Emission where
  linkage : Linkage
  patches : Array Patch
  /-- Whether arithmetic has overflowed. -/
  overflowed : Bool

namespace Act

variable {α : Type}

/-- Evaluates within a linkage. -/
def evaluating (x : Act Random α) : Act Linkage α :=
  Act.within Linkage.random (fun s random => { s with random }) x

/-- Compiles within an emission. -/
def linking (x : Act Linkage α) : Act Emission α :=
  Act.within Emission.linkage (fun s linkage => { s with linkage }) x

/-- Evaluates within an emission. -/
def drawing (x : Act Random α) : Act Emission α := linking (evaluating x)

end Act

namespace Scope

/-- The position of a name in the table of symbols. -/
def symbol (sc : Scope) (name : String) : Act Linkage Nat :=
  Act.modifyGet fun s =>
    let (id, symbols) := sc.state.symbolId s.symbols name
    (id, { s with symbols })

/-- The position of a place in the table of symbols. -/
def place (sc : Scope) (name : String) (offset : Nat) : Act Linkage Nat :=
  Act.modifyGet fun s =>
    let (id, symbols) := sc.state.locationId s.symbols name offset
    (id, { s with symbols })

/-- Reports a cause and goes on with the number zero. -/
def compileZero (cause : EvaluationCause) (token : Token) : Act Linkage Link.Program := do
  Act.fault cause token
  return [.int 0]

/-- Compiles a name, where `@` is the place `location` of the open section. -/
def compileName (sc : Scope) (location : Nat) (t : Token) : Act Linkage Link.Program :=
  if t.text == "@" then
    match sc.state.current with
    | none => compileZero .locationOutsideSection t
    | some name => do
      let id ← sc.place name location
      return [.address id]
  else
    match sc.state.qualify t.text with
    | none => compileZero (.localOutsideGlobal t.text) t
    | some name => do
      let id ← sc.symbol name
      return [.address id]

/-- The program behind the operand of an operator. -/
def unaryProgram : UnaryOp → Link.Program
  | .neg => [.neg]
  | .complement => [.complement]
  | .not => [.not]
  | .plus => []

/-- The instruction that asks for something about a symbol. -/
def ofSymbol? : Function → Nat → Option Link.Instr
  | .bank, id => some (.bankOfSymbol id)
  | .sizeof, id => some (.sizeOfSymbol id)
  | _, _ => none

/-- The instruction that asks for something about the current section. -/
def ofHere? : Function → Option Link.Instr
  | .bank => some .bankHere
  | .sizeof => some .sizeHere
  | _ => none

/-- The instruction that asks for something about a section. -/
def ofSection (f : Function) (name : String) : Link.Instr :=
  match f with
  | .bank => .bankOfSection name
  | .sizeof => .sizeOfSection name
  | _ => .startOfSection name

/-- Compiles a question about a symbol, a section or the current section. -/
def compileQuery (sc : Scope) (f : Function) (args : List Expr) : Act Linkage Link.Program :=
  let bySection (e : Expr) : Act Linkage Link.Program := do
    let name ← Act.evaluating (sc.text e)
    return [ofSection f name]
  match args with
  | [] => return (ofHere? f).toList
  | .identifier t :: _ =>
    match ofHere? f with
    | none => bySection (.identifier t)
    | some here =>
      if t.text == "@" then return [here]
      else
        match sc.state.qualify t.text with
        | none => compileZero (.localOutsideGlobal t.text) t
        | some name => do
          let id ← sc.symbol name
          return (ofSymbol? f id).toList
  | e :: _ => bySection e

/-- Compiles an expression, where `@` is the place `location` of the open section. -/
def compile (sc : Scope) (location : Nat) (e : Expr) : Act Linkage Link.Program :=
  if sc.isConstant e then do
    let n ← Act.evaluating (sc.number e)
    return [.int n]
  else
    match e with
    | .number _ | .string _ => return [.int 0]
    | .identifier t => sc.compileName location t
    | .unary op _ e => do
      let program ← sc.compile location e
      return program ++ unaryProgram op
    | .binary op _ l r => do
      let left ← sc.compile location l
      let right ← sc.compile location r
      return left ++ right ++ [.binary op]
    | .call t args =>
      match sc.callee t args.length with
      | .error cause => compileZero cause t
      | .ok f =>
        match f, args with
        | .high, [e] => do
          let program ← sc.compile location e
          return program ++ [.int 0xFF00, .binary .bitAnd, .int 8, .binary .shiftRight]
        | .low, [e] => do
          let program ← sc.compile location e
          return program ++ [.int 0xFF, .binary .bitAnd]
        | _, _ =>
          if f.isLinkTime then sc.compileQuery f args else compileZero (.notAtLinkTime f) t
    | .bracket _ e => sc.compile location e
    | .index _ _ e => sc.compile location e

/-! ## Patches -/

/-- Queues a patch whose program is followed by `check`. -/
def deferWith (sc : Scope) (check : Link.Program) (kind : PatchKind) (offset : Nat) (e : Expr) :
    Act Emission Unit :=
  match sc.state.current with
  | none => Act.fault .deferredOutsideSection e.token
  | some place => do
    let program ← Act.linking (sc.compile (sc.here?.getD 0) e)
    let patch : Patch :=
      { expr := e, file := sc.state.file, line := sc.state.line, place, kind, offset,
        program := program ++ check }
    Act.modify fun s => { s with patches := s.patches.push patch }

/-- Queues a patch. -/
def defer (sc : Scope) (kind : PatchKind) (offset : Nat) (e : Expr) : Act Emission Unit :=
  sc.deferWith [] kind offset e

/-- The value of an expression, or a patch and zero when it is not constant. -/
def valueOrPatch (sc : Scope) (check : Link.Program) (kind : PatchKind) (offset : Nat)
    (expected : Expected) (e : Expr) : Act Emission Value :=
  if sc.isConstant e then Act.drawing (sc.evaluate expected e)
  else if expected == .text then do
    Act.fault .stringNotConstant e.token
    return .text ""
  else do
    sc.deferWith check kind offset e
    return .number 0

/-- The number of an expression, or a patch and zero when it is not constant. -/
def numberOrPatch (sc : Scope) (kind : PatchKind) (offset : Nat) (e : Expr) :
    Act Emission Int32 :=
  Value.toNumber <$> sc.valueOrPatch [] kind offset .number e

/-- The byte of an expression, or a patch that the linker checks to lie in the top page. -/
def topPageOrPatch (sc : Scope) (offset : Nat) (e : Expr) : Act Emission Int32 :=
  Value.toNumber <$> sc.valueOrPatch [.hramCheck] .byte offset .number e

/-- The offset of a jump target in the open section, when it is known now: a place in the section,
or one a constant distance away. -/
def target? (sc : Scope) : Expr → Act Random (Option Int32)
  | .identifier t =>
    return match sc.placeOf? t.text with
      | some (place, offset) =>
        if some place == sc.state.current then some (Int32.ofNat offset) else none
      | none => none
  | .binary op _ l r =>
    if op == .add || op == .sub then do
      match ← sc.target? l with
      | none => return none
      | some start =>
        if sc.isConstant r then do
          let delta ← sc.number r
          return some (if op == .add then start + delta else start - delta)
        else return none
    else return none
  | _ => return none

end Scope

/-! ## Actions on the state

Actions start from the random source, the symbols and the patches of a state, and their reports
become diagnostics at the current place. An overflow is noted in the state. -/

namespace State

variable {α : Type}

/-- The scope of an expression on the current line. -/
def scope (st : State) : Scope := { state := st }

/-- Carries out an evaluation. -/
def evaluating (st : State) (x : Act Random α) : α × State :=
  let o := x st.random
  (o.value, { st with random := o.state }.record o.reports)

/-- Carries out a compilation. -/
def linking (st : State) (x : Act Linkage α) : α × State :=
  let o := x ⟨st.random, st.symbols⟩
  (o.value, { st with random := o.state.random, symbols := o.state.symbols }.record o.reports)

/-- What placing bytes starts from. -/
def emission (st : State) : Emission := ⟨⟨st.random, st.symbols⟩, st.patches, st.overflowed⟩

/-- Carries out the placing of bytes. -/
def emitting (st : State) (x : Act Emission α) : α × State :=
  let o := x st.emission
  (o.value,
    { st with
      random := o.state.linkage.random
      symbols := o.state.linkage.symbols
      patches := o.state.patches
      overflowed := o.state.overflowed }.record o.reports)

/-- The number of an expression that must be constant. -/
def number (st : State) (e : Expr) : Int32 × State := st.evaluating (st.scope.number e)

/-- The text of an expression that must be constant. -/
def text (st : State) (e : Expr) : String × State := st.evaluating (st.scope.text e)

/-- The number of an optional expression. -/
def numberD (st : State) (default : Int32) : Option Expr → Int32 × State
  | some e => st.number e
  | none => (default, st)

end State

end Sm83Asm
