import Sm83Asm.Text.Basic

set_option autoImplicit false

/-!
# The words of the language

Keywords direct the assembler, functions are called from expressions, and regions say where a
section may lie. For each word this module holds its spelling and what the grammar has to know
about it; what the words do is defined with the parts of the assembler that carry them out.
-/

namespace Sm83Asm

/-! ## Numbers of arguments -/

/-- A range of argument counts. -/
structure Arity where
  least : Nat
  /-- `none` when any larger count is accepted. -/
  most : Option Nat
deriving DecidableEq, Repr, Inhabited

namespace Arity

/-- Exactly `n` arguments. -/
def exactly (n : Nat) : Arity := ⟨n, some n⟩

/-- From `lo` to `hi` arguments. -/
def between (lo hi : Nat) : Arity := ⟨lo, some hi⟩

/-- At least `n` arguments. -/
def atLeast (n : Nat) : Arity := ⟨n, none⟩

/-- Whether `n` arguments are accepted. -/
def accepts (a : Arity) (n : Nat) : Bool :=
  a.least ≤ n && (a.most.all fun most => n ≤ most)

/-- The range in messages. -/
def describe (a : Arity) : String :=
  match a.most with
  | none => s!"at least {a.least}"
  | some most => if a.least == most then s!"{a.least}" else s!"{a.least} to {most}"

end Arity

/-! ## Keywords -/

/-- Words that direct the assembler. -/
inductive Keyword where
  | db | dw | dl | ds
  | equ | equs | set
  | rb | rw | rl | rsreset | rsset
  | charmap
  | ifTrue | elseIf | elseAll | endIf
  | macroStart | macroEnd | shift
  | rept | endr
  | union | nextu | endu
  | includeFile | incbin
  | exportName | globalName | purge
  | sectionStart | pushs | pops
  | opt | pusho | popo
  | warn | fail
  | printt | printv | printi | printf
  | reseed
deriving DecidableEq, Repr, Inhabited

namespace Keyword

/-- Every keyword. -/
def all : List Keyword :=
  [.db, .dw, .dl, .ds, .equ, .equs, .set, .rb, .rw, .rl, .rsreset, .rsset, .charmap, .ifTrue,
    .elseIf, .elseAll, .endIf, .macroStart, .macroEnd, .shift, .rept, .endr, .union, .nextu,
    .endu, .includeFile, .incbin, .exportName, .globalName, .purge, .sectionStart, .pushs, .pops,
    .opt, .pusho, .popo, .warn, .fail, .printt, .printv, .printi, .printf, .reseed]

/-- The spelling of a keyword in upper case. -/
def name : Keyword → String
  | .db => "DB"
  | .dw => "DW"
  | .dl => "DL"
  | .ds => "DS"
  | .equ => "EQU"
  | .equs => "EQUS"
  | .set => "SET"
  | .rb => "RB"
  | .rw => "RW"
  | .rl => "RL"
  | .rsreset => "RSRESET"
  | .rsset => "RSSET"
  | .charmap => "CHARMAP"
  | .ifTrue => "IF"
  | .elseIf => "ELIF"
  | .elseAll => "ELSE"
  | .endIf => "ENDC"
  | .macroStart => "MACRO"
  | .macroEnd => "ENDM"
  | .shift => "SHIFT"
  | .rept => "REPT"
  | .endr => "ENDR"
  | .union => "UNION"
  | .nextu => "NEXTU"
  | .endu => "ENDU"
  | .includeFile => "INCLUDE"
  | .incbin => "INCBIN"
  | .exportName => "EXPORT"
  | .globalName => "GLOBAL"
  | .purge => "PURGE"
  | .sectionStart => "SECTION"
  | .pushs => "PUSHS"
  | .pops => "POPS"
  | .opt => "OPT"
  | .pusho => "PUSHO"
  | .popo => "POPO"
  | .warn => "WARN"
  | .fail => "FAIL"
  | .printt => "PRINTT"
  | .printv => "PRINTV"
  | .printi => "PRINTI"
  | .printf => "PRINTF"
  | .reseed => "RESEED"

/-- The keyword that a word spells, in either case. -/
def ofWord? (word : String) : Option Keyword :=
  let spelling := Text.upper word
  all.find? fun keyword => keyword.name == spelling

/-- Keywords that exist only while the extensions are on. -/
def isExtension : Keyword → Bool
  | .reseed => true
  | _ => false

/-- Keywords whose label is the symbol being defined and no place in the code. -/
def namesLabel : Keyword → Bool
  | .equ | .equs | .set | .rb | .rw | .rl | .macroStart => true
  | _ => false

/-- Keywords whose arguments are option texts and no expressions. -/
def takesRawText : Keyword → Bool
  | .opt | .pusho => true
  | _ => false

/-- Keywords that open a block and look at their arguments only once the block is live. -/
def checksOwnArity : Keyword → Bool
  | .ifTrue | .elseIf | .rept => true
  | _ => false

/-- Number of arguments. -/
def arity : Keyword → Arity
  | .db | .dw | .dl | .pusho => .atLeast 0
  | .exportName | .globalName | .purge | .opt => .atLeast 1
  | .ds => .between 1 2
  | .rb | .rw | .rl | .macroStart | .shift => .between 0 1
  | .charmap => .exactly 2
  | .incbin => .between 1 3
  | .sectionStart => .between 2 4
  | .rsreset | .elseAll | .endIf | .macroEnd | .endr | .union | .nextu | .endu | .pushs | .pops
  | .popo => .exactly 0
  | _ => .exactly 1

end Keyword

/-! ## Functions -/

/-- Functions callable from expressions. -/
inductive Function where
  | high | low
  | bank | sizeof | startof
  | defined | isconst
  | strlen | strcat | strcmp | strin | strsub | strupr | strlwr | strrpl
  | mul | div | floor | ceil | round
  | randint | randbyte | randword | randlong
deriving DecidableEq, Repr, Inhabited

namespace Function

/-- Every function. -/
def all : List Function :=
  [.high, .low, .bank, .sizeof, .startof, .defined, .isconst, .strlen, .strcat, .strcmp, .strin,
    .strsub, .strupr, .strlwr, .strrpl, .mul, .div, .floor, .ceil, .round, .randint, .randbyte,
    .randword, .randlong]

/-- The spelling of a function in upper case. -/
def name : Function → String
  | .high => "HIGH"
  | .low => "LOW"
  | .bank => "BANK"
  | .sizeof => "SIZEOF"
  | .startof => "STARTOF"
  | .defined => "DEF"
  | .isconst => "ISCONST"
  | .strlen => "STRLEN"
  | .strcat => "STRCAT"
  | .strcmp => "STRCMP"
  | .strin => "STRIN"
  | .strsub => "STRSUB"
  | .strupr => "STRUPR"
  | .strlwr => "STRLWR"
  | .strrpl => "STRRPL"
  | .mul => "MUL"
  | .div => "DIV"
  | .floor => "FLOOR"
  | .ceil => "CEIL"
  | .round => "ROUND"
  | .randint => "RANDINT"
  | .randbyte => "RANDBYTE"
  | .randword => "RANDWORD"
  | .randlong => "RANDLONG"

/-- Functions that exist only while the extensions are on. -/
def isExtension : Function → Bool
  | .randint | .randbyte | .randword | .randlong => true
  | _ => false

/-- The function that a word calls, in either case. -/
def ofWord? (word : String) (extensions : Bool) : Option Function :=
  let spelling := Text.upper word
  (all.find? fun f => f.name == spelling).filter fun f => extensions || !f.isExtension

/-- Number of arguments. -/
def arity : Function → Arity
  | .randbyte | .randword | .randlong => .exactly 0
  | .sizeof | .bank => .between 0 1
  | .strcat => .atLeast 0
  | .strcmp | .strin | .mul | .div | .randint => .exactly 2
  | .strsub => .between 2 3
  | .strrpl => .exactly 3
  | _ => .exactly 1

/-- Functions of which only the linker knows the value. -/
def isLinkTime : Function → Bool
  | .bank | .sizeof | .startof => true
  | _ => false

/-- Functions whose value is fixed whatever their argument is. -/
def isAlwaysConstant : Function → Bool
  | .defined | .isconst => true
  | _ => false

/-- Whether the argument at a position is a text; all others are numbers. -/
def takesText : Function → Nat → Bool
  | .strsub, i => i == 0
  | .defined, _ | .strlen, _ | .strcat, _ | .strcmp, _ | .strin, _ | .strupr, _ | .strlwr, _
  | .strrpl, _ => true
  | _, _ => false

end Function

/-! ## Regions -/

/-- A part of the address space. -/
inductive Region where
  | rom0
  | romx
  | vram
  | sram
  | wram0
  | wramx
  | oam
  | hram
deriving DecidableEq, Repr, Inhabited

namespace Region

/-- Every region, in the order of their tags in object files. -/
def all : List Region := [.rom0, .romx, .vram, .sram, .wram0, .wramx, .oam, .hram]

/-- The name of a region in source text. -/
def name : Region → String
  | .rom0 => "ROM0"
  | .romx => "ROMX"
  | .vram => "VRAM"
  | .sram => "SRAM"
  | .wram0 => "WRAM0"
  | .wramx => "WRAMX"
  | .oam => "OAM"
  | .hram => "HRAM"

/-- The region that a word names, in either case. -/
def ofWord? (word : String) : Option Region :=
  let spelling := Text.upper word
  all.find? fun region => region.name == spelling

/-- First and last address. -/
def addresses : Region → Nat × Nat
  | .rom0 => (0x0000, 0x3FFF)
  | .romx => (0x4000, 0x7FFF)
  | .vram => (0x8000, 0x9FFF)
  | .sram => (0xA000, 0xBFFF)
  | .wram0 => (0xC000, 0xCFFF)
  | .wramx => (0xD000, 0xDFFF)
  | .oam => (0xFE00, 0xFE9F)
  | .hram => (0xFF80, 0xFFFE)

/-- First and last bank number of a banked region. -/
def banks? : Region → Option (Nat × Nat)
  | .romx => some (1, 511)
  | .vram => some (0, 1)
  | .sram => some (0, 15)
  | .wramx => some (1, 7)
  | _ => none

/-- Whether an address lies in the region. -/
def hasAddress (region : Region) (address : Int) : Bool :=
  region.addresses.1 ≤ address && address ≤ region.addresses.2

end Region

end Sm83Asm
