import Sm83Asm.Config
import Sm83Asm.Diagnostic
import Sm83Asm.Link.Program
import Sm83Asm.Random

set_option autoImplicit false

/-!
# The state of an assembly

Everything that one line can leave behind for the next: the tables of defined names, the sections
with their bytes, the patches and symbols for the linker, the diagnostics, and the blocks, calls
and scopes that are open. Every stack is a list with its innermost entry first.
-/

namespace Sm83Asm

/-! ## Entries of the tables -/

/-- A run of bytes that the linker places as a whole. -/
structure Section where
  name : String
  /-- The file that declared the section. -/
  file : String
  region : Region
  fixedAddress : Option UInt16 := none
  bank : Option UInt32 := none
  /-- The number of low address bits that must be zero. -/
  alignment : Option UInt8 := none
  bytes : Array UInt8 := #[]
deriving Inhabited

/-- Whether two declarations ask for the same place. -/
def Section.sameLayout (s t : Section) : Bool :=
  s.region == t.region && s.fixedAddress == t.fixedAddress && s.bank == t.bank &&
    s.alignment == t.alignment

/-- A named place in a section. -/
structure Label where
  file : String
  startLine : Nat
  endLine : Nat
  /-- The section that the label lies in. -/
  place : String
  offset : Nat
  size : Nat
  exported : Bool
deriving DecidableEq, Repr, Inhabited

/-- A name for a number. -/
structure NumberEquate where
  file : String
  line : Nat
  value : Int32
deriving DecidableEq, Repr, Inhabited

/-- A name for a text. -/
structure StringEquate where
  file : String
  line : Nat
  value : String
deriving DecidableEq, Repr, Inhabited

/-- A number that may be set again. -/
structure Variable where
  file : String
  /-- The lines that set the variable, oldest first. -/
  lines : List Nat
  value : Int32
deriving DecidableEq, Repr, Inhabited

/-- A macro: the lines between `startLine` and `endLine` of a file. -/
structure Macro where
  file : String
  startLine : Nat
  endLine : Nat
deriving DecidableEq, Repr, Inhabited

/-- What the linker knows about a symbol. -/
inductive SymbolKind where
  | exported
  | imported
  | localOnly
deriving DecidableEq, Repr, Inhabited

/-- A name that link-time programs may refer to by its number. -/
structure Symbol where
  id : Nat
  name : String
  kind : SymbolKind
  file : String
  line : Nat
  /-- The section that the symbol lies in, unless it is imported. -/
  place : Option String
  value : Int32
deriving DecidableEq, Repr, Inhabited

/-- What a patch writes. -/
inductive PatchKind where
  | byte
  | word
  | long
  /-- One byte, relative to the end of a jump. -/
  | jump
deriving DecidableEq, Repr, Inhabited

/-- Number of bytes that a patch writes. -/
def PatchKind.width : PatchKind → Nat
  | .byte | .jump => 1
  | .word => 2
  | .long => 4

/-- Bytes that the linker has to fill in. -/
structure Patch where
  /-- The expression to be computed. -/
  expr : Expr
  file : String
  line : Nat
  /-- The section that holds the bytes. -/
  place : String
  kind : PatchKind
  offset : Nat
  program : Link.Program
deriving Inhabited

/-! ## Entries of the stacks -/

/-- An open conditional block. -/
structure Conditional where
  /-- Whether the current branch is live. -/
  condition : Bool
  /-- Whether some branch was live already, or none can be. -/
  taken : Bool
deriving DecidableEq, Repr, Inhabited

/-- An open repeat, whose body is being passed over. -/
structure Repeat where
  count : Nat
  line : Nat
  file : String
deriving DecidableEq, Repr, Inhabited

/-- An open macro definition. -/
structure MacroDef where
  name : String
  file : String
  startLine : Nat
deriving DecidableEq, Repr, Inhabited

/-- A macro call that is being expanded. -/
structure MacroFrame where
  name : String
  args : List String
  /-- Number of arguments that were shifted away. -/
  shifted : Nat := 0
deriving DecidableEq, Repr, Inhabited

namespace MacroFrame

/-- The argument with a number from one, behind those that were shifted away. -/
def arg? (f : MacroFrame) : Nat → Option String
  | 0 => none
  | n + 1 => f.args[n + f.shifted]?

/-- The arguments that are left. -/
def remaining (f : MacroFrame) : List String := f.args.drop f.shifted

end MacroFrame

/-- An open union. -/
structure Union where
  /-- Where every member starts. -/
  offset : Nat
  /-- Length of the longest member so far. -/
  length : Nat
deriving DecidableEq, Repr, Inhabited

/-- What is saved when a section is set aside. -/
structure SectionScope where
  current : Option String
  unions : List Union
  globalLabel : Option String
deriving DecidableEq, Repr, Inhabited

/-! ## The state -/

/-- Everything that one line can leave behind for the next. -/
structure State where
  config : Config
  random : Random
  file : String := ""
  line : Nat := 0
  extensions : Bool := true

  labels : Table Label := {}
  numbers : Table NumberEquate := {}
  strings : Table StringEquate := {}
  vars : Table Variable := {}
  macros : Table Macro := {}
  sections : Table Section := {}
  symbols : Table Symbol := {}
  patches : Array Patch := #[]
  diagnostics : Array Diagnostic := #[]
  printed : String := ""
  charmap : Table UInt8 := {}

  /-- The section that bytes go to. There is never more than one: `SECTION` replaces it, `PUSHS`
  sets it aside and leaves none, and `POPS` puts back what was set aside. -/
  current : Option String := none
  unions : List Union := []
  /-- The label that names starting with a point belong to. -/
  globalLabel : Option String := none
  savedScopes : List SectionScope := []

  conditionals : List Conditional := []
  repeats : List Repeat := []
  macroDefs : List MacroDef := []
  frames : List MacroFrame := []
  /-- Numbers of the expansions that are being carried out. -/
  uniqueIds : List Nat := []
  /-- Number of expansions so far. -/
  expansions : Nat := 0

  /-- The options in force. They are kept apart from those that were saved, because there are
  always some: `PUSHO` saves a copy of them, and `POPO` is an error when nothing was saved. -/
  options : Options := {}
  savedOptions : List Options := []
  /-- Offset of the next structure field. -/
  fieldOffset : Int32 := 0
  /-- The label whose size is still growing. -/
  openLabel : Option String := none
  /-- Names that were exported before they were defined. -/
  pendingExports : List String := []
  /-- Whether the arithmetic of an instruction has left the range of its type. Where arithmetic is
  checked, the assembly stops there without a result. This state goes on as one does where it is
  not checked, with the number that the arithmetic wraps around to. -/
  overflowed : Bool := false
deriving Inhabited

namespace State

/-- The state that a run starts from. -/
def ofConfig (config : Config) : State :=
  let file := "__DEFINES__"
  { config
    file
    random := .ofSeed config.seed
    options := config.options
    extensions := !config.compatibility
    numbers := ⟨config.defines.entries.map fun (name, value) => (name, ⟨file, 0, value⟩)⟩ }

/-! ## Reports -/

/-- Turns reports into diagnostics at the current place. -/
def record (st : State) (reports : List Report) : State :=
  { st with
    diagnostics := st.diagnostics ++ (reports.map fun r => ⟨r, st.file, st.line⟩).toArray }

/-- Adds an error of the evaluator. -/
def fault (st : State) (cause : EvaluationCause) (token : Token) : State :=
  st.record [.evaluation cause token]

/-! ## The open section -/

/-- The section that bytes go to. -/
def section? (st : State) : Option Section :=
  st.current.bind st.sections.get?

/-- The offset of the next byte. -/
def offset? (st : State) : Option Nat :=
  st.section?.map (·.bytes.size)

/-- Changes the bytes of the open section. -/
def mapBytes (st : State) (f : Array UInt8 → Array UInt8) : State :=
  match st.current with
  | some name =>
    { st with sections := st.sections.modify name fun s => { s with bytes := f s.bytes } }
  | none => st

/-- Puts bytes at the end of the open section. -/
def emit (st : State) (bytes : Array UInt8) : State :=
  st.mapBytes (· ++ bytes)

/-! ## Blocks and calls -/

/-- Whether every open conditional block is in a live branch. -/
def conditionsTrue (st : State) : Bool :=
  st.conditionals.all (·.condition)

/-- Whether every open conditional block but the innermost is in a live branch. -/
def outerConditionsTrue (st : State) : Bool :=
  st.conditionals.tail.all (·.condition)

/-- The macro call being expanded. -/
def frame? (st : State) : Option MacroFrame := st.frames.head?

/-! ## Names -/

/-- The full name of a label: one that starts with a point belongs to the global label. -/
def qualify (st : State) (name : String) : Option String :=
  match name.toList with
  | '.' :: _ => st.globalLabel.map (· ++ name)
  | _ => some name

/-- Whether a name has any meaning. -/
def isDefined (st : State) (name : String) : Bool :=
  st.numbers.contains name || st.strings.contains name || st.vars.contains name ||
    st.macros.contains name || (st.qualify name).any st.labels.contains

/-- Ends the label whose size is still growing. -/
def closeLabel (st : State) : State :=
  match st.openLabel with
  | none => st
  | some name =>
    let finish (label : Label) : Label :=
      let stop :=
        match st.sections.get? label.place with
        | some s => s.bytes.size
        | none => label.offset
      { label with endLine := st.line, size := stop - label.offset }
    { st with openLabel := none, labels := st.labels.modify name finish }

end State

end Sm83Asm
