import Sm83Asm.State

set_option autoImplicit false

/-!
# Object files

What an assembly hands to the linker, and its bytes. An object file is a magic word, a heap that
holds every name, and the lists of sections, symbols and patches. Names are written as their place
and length in the heap; a name that already occurs in the heap is not stored again. The program of a
patch is a stretch of bytes here, whatever they mean to the linker.
-/

namespace Sm83Asm

/-- The result of an assembly. -/
structure Object where
  sections : List Section
  symbols : List Symbol
  patches : List Patch
  diagnostics : List Diagnostic
  /-- Everything that the source printed. -/
  printed : String

/-- Whether the result is spoiled by an error. -/
def Object.hasErrors (o : Object) : Bool := o.diagnostics.any Diagnostic.isError

/-! ## Contents -/

/-- A symbol of an object file. Its position in the list is what programs refer to it by. -/
structure SymbolEntry where
  name : String
  kind : SymbolKind
  file : String
  line : Nat
  place : Option String
  value : Int32
deriving DecidableEq, Repr

/-- A patch of an object file, with the bytes of its program. -/
structure PatchEntry where
  file : String
  line : Nat
  place : String
  kind : PatchKind
  offset : Nat
  program : List UInt8
deriving DecidableEq, Repr

/-- What an object file holds. -/
structure Contents where
  sections : List Section
  symbols : List SymbolEntry
  patches : List PatchEntry

/-- What an object file says about a symbol. -/
def Symbol.entry (s : Symbol) : SymbolEntry :=
  { name := s.name, kind := s.kind, file := s.file, line := s.line, place := s.place,
    value := s.value }

/-- What an object file says about a patch. -/
def Patch.entry (p : Patch) : PatchEntry :=
  { file := p.file, line := p.line, place := p.place, kind := p.kind, offset := p.offset,
    program := Link.bytes p.program }

/-- What the object file of a result holds. -/
def Object.contents (o : Object) : Contents :=
  { sections := o.sections, symbols := o.symbols.map Symbol.entry,
    patches := o.patches.map Patch.entry }

namespace ObjectFormat

/-! ## The heap of names -/

/-- A place and a length in the heap, in bytes. -/
structure HeapRef where
  offset : Nat
  length : Nat

/-- Stores a name in the heap, unless it occurs there. -/
def intern (heap : List Char) (name : String) : HeapRef × List Char :=
  let cs := name.toList
  match Text.find? cs heap with
  | some n => (⟨Text.byteLength (heap.take n), Text.byteLength cs⟩, heap)
  | none => (⟨Text.byteLength heap, Text.byteLength cs⟩, heap ++ cs)

/-- Stores a name that may be missing. -/
def intern? (heap : List Char) : Option String → Option HeapRef × List Char
  | none => (none, heap)
  | some name =>
    let (ref, heap) := intern heap name
    (some ref, heap)

/-- Stores the names of some entries one after the other. -/
def internAll {α β : Type} (store : List Char → α → β × List Char) (heap : List Char) :
    List α → List β × List Char
  | [] => ([], heap)
  | a :: as =>
    let (ref, heap) := store heap a
    let (refs, heap) := internAll store heap as
    (ref :: refs, heap)

/-- References to the name and the file of a section. -/
def internSection (heap : List Char) (s : Section) : (HeapRef × HeapRef) × List Char :=
  let (file, heap) := intern heap s.file
  let (name, heap) := intern heap s.name
  ((name, file), heap)

/-- References to the name, the file and the section of a symbol. -/
def internSymbol (heap : List Char) (s : SymbolEntry) :
    (HeapRef × HeapRef × Option HeapRef) × List Char :=
  let (place, heap) := intern? heap s.place
  let (name, heap) := intern heap s.name
  let (file, heap) := intern heap s.file
  ((name, file, place), heap)

/-- References to the file and the section of a patch. -/
def internPatch (heap : List Char) (p : PatchEntry) : (HeapRef × HeapRef) × List Char :=
  let (file, heap) := intern heap p.file
  let (place, heap) := intern heap p.place
  ((file, place), heap)

/-! ## Bytes -/

/-- The word at the start of every object file. -/
def magic : List UInt8 := Text.utf8 "gbobj01"

/-- A number in four bytes, lowest first. -/
def long (n : Nat) : List UInt8 := Link.littleEndian (UInt32.ofNat n)

/-- A reference into the heap. -/
def ref (r : HeapRef) : List UInt8 := long r.offset ++ long r.length

/-- Something that may be missing, behind a byte that says whether it is there. -/
def optional {α : Type} (write : α → List UInt8) : Option α → List UInt8
  | none => [0]
  | some a => 1 :: write a

/-- Bytes behind their number. -/
def blob (bytes : List UInt8) : List UInt8 := long bytes.length ++ bytes

/-- The tag of a region. -/
def regionTag : Region → UInt8
  | .rom0 => 0
  | .romx => 1
  | .vram => 2
  | .sram => 3
  | .wram0 => 4
  | .wramx => 5
  | .oam => 6
  | .hram => 7

/-- The tag of a kind of symbol. -/
def symbolTag : SymbolKind → UInt8
  | .localOnly => 0
  | .exported => 1
  | .imported => 2

/-- The tag of a kind of patch. -/
def patchTag : PatchKind → UInt8
  | .byte => 0
  | .word => 1
  | .long => 2
  | .jump => 3

/-- A section whose name and file are in the heap. -/
def sectionBytes (refs : HeapRef × HeapRef) (s : Section) : List UInt8 :=
  ref refs.1 ++ ref refs.2 ++ [regionTag s.region] ++
    optional (fun n => long n.toNat) s.fixedAddress ++
    optional (fun n => long n.toNat) s.bank ++
    optional (fun n => long n.toNat) s.alignment ++
    blob s.bytes.toList

/-- A symbol whose name, file and section are in the heap. -/
def symbolBytes (refs : HeapRef × HeapRef × Option HeapRef) (s : SymbolEntry) : List UInt8 :=
  ref refs.1 ++ [symbolTag s.kind] ++ ref refs.2.1 ++ long s.line ++ optional ref refs.2.2 ++
    Link.littleEndian s.value.toUInt32

/-- A patch whose file and section are in the heap. -/
def patchBytes (refs : HeapRef × HeapRef) (p : PatchEntry) : List UInt8 :=
  ref refs.1 ++ long p.line ++ ref refs.2 ++ [patchTag p.kind] ++ long p.offset ++
    blob p.program

/-- A list behind the number of its entries. -/
def listBytes {α β : Type} (write : β → α → List UInt8) (refs : List β) (entries : List α) :
    List UInt8 :=
  long entries.length ++ (refs.zip entries).flatMap fun (r, a) => write r a

end ObjectFormat

open ObjectFormat in
/-- The bytes of an object file. -/
def Contents.write (c : Contents) : List UInt8 :=
  let (sections, heap) := internAll internSection [] c.sections
  let (symbols, heap) := internAll internSymbol heap c.symbols
  let (patches, heap) := internAll internPatch heap c.patches
  magic ++ blob (Text.utf8 (String.ofList heap)) ++
    listBytes sectionBytes sections c.sections ++
    listBytes symbolBytes symbols c.symbols ++
    listBytes patchBytes patches c.patches

/-- The bytes of the object file of a result. -/
def Object.write (o : Object) : List UInt8 := o.contents.write

end Sm83Asm
