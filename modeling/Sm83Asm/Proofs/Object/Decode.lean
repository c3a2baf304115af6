import Sm83Asm.Proofs.Object.Heap

set_option autoImplicit false

/-!
# Reading object files back

A reader for object files, which knows their bytes only: it checks the magic word, keeps the heap,
and looks up every name in it while it goes through the lists of sections, symbols and patches.

Main statement: as long as every number of an object fits into the four bytes that it is written in,
what is read from its bytes is its sections, symbols and patches in order, down to the last byte
(`decode?_contents`, and `decode?_write` for the result of an assembly).
-/

namespace Sm83Asm

/-! ## What fits into an object file -/

/-- The heap that is written when every name has been stored. -/
def Contents.heap (c : Contents) : List Char :=
  let sections := (ObjectFormat.internAll ObjectFormat.internSection [] c.sections).2
  let symbols := (ObjectFormat.internAll ObjectFormat.internSymbol sections c.symbols).2
  (ObjectFormat.internAll ObjectFormat.internPatch symbols c.patches).2

/-- Every number of an object file fits into the four bytes that it is written in. -/
structure Contents.Fits (c : Contents) : Prop where
  heap : Text.byteLength c.heap < UInt32.size
  sections : c.sections.length < UInt32.size
  bytes : ∀ s ∈ c.sections, s.bytes.size < UInt32.size
  symbols : c.symbols.length < UInt32.size
  symbolLines : ∀ s ∈ c.symbols, s.line < UInt32.size
  patches : c.patches.length < UInt32.size
  patchLines : ∀ p ∈ c.patches, p.line < UInt32.size
  offsets : ∀ p ∈ c.patches, p.offset < UInt32.size
  programs : ∀ p ∈ c.patches, p.program.length < UInt32.size

/-- Every number of a result fits into the four bytes that it is written in. -/
def Object.Fits (o : Object) : Prop := o.contents.Fits

namespace ObjectFormat

open Bytes (Reader Reads)

/-! ## Readers -/

section Readers

variable {α : Type}

/-- Reads some known bytes. -/
def readExactly (bytes : List UInt8) : Reader Unit := do
  let found ← Bytes.chunk bytes.length
  StateT.lift (if found = bytes then some () else none)

/-- Reads a name of a heap. -/
def readName (heap : List UInt8) : Reader String := do
  let offset ← Bytes.long
  let length ← Bytes.long
  StateT.lift ((slice? heap ⟨offset, length⟩).bind Bytes.text?)

/-- Reads something that may be missing. -/
def readOptional (r : Reader α) : Reader (Option α) := do
  let present ← Bytes.byte
  match present with
  | 0 => pure none
  | 1 => some <$> r
  | _ => StateT.lift none

/-- Reads the tag of one of some values. -/
def readTag (tag : α → UInt8) (values : List α) : Reader α := do
  let found ← Bytes.byte
  StateT.lift (values.find? fun a => tag a == found)

/-- Reads a number of entries. -/
def readEntries (r : Reader α) : Nat → Reader (List α)
  | 0 => pure []
  | n + 1 => do
    let a ← r
    let as ← readEntries r n
    pure (a :: as)

/-- Reads entries behind their number. -/
def readList (r : Reader α) : Reader (List α) := do
  let n ← Bytes.long
  readEntries r n

end Readers

/-- Reads a section. -/
def readSection (heap : List UInt8) : Reader Section := do
  let name ← readName heap
  let file ← readName heap
  let region ← readTag regionTag [.rom0, .romx, .vram, .sram, .wram0, .wramx, .oam, .hram]
  let fixedAddress ← readOptional (UInt16.ofNat <$> Bytes.long)
  let bank ← readOptional (UInt32.ofNat <$> Bytes.long)
  let alignment ← readOptional (UInt8.ofNat <$> Bytes.long)
  let bytes ← Bytes.blob
  pure { name, file, region, fixedAddress, bank, alignment, bytes := bytes.toArray }

/-- Reads a symbol. -/
def readSymbol (heap : List UInt8) : Reader SymbolEntry := do
  let name ← readName heap
  let kind ← readTag symbolTag [.localOnly, .exported, .imported]
  let file ← readName heap
  let line ← Bytes.long
  let place ← readOptional (readName heap)
  let value ← Bytes.word
  pure { name, kind, file, line, place, value := value.toInt32 }

/-- Reads a patch. -/
def readPatch (heap : List UInt8) : Reader PatchEntry := do
  let file ← readName heap
  let line ← Bytes.long
  let place ← readName heap
  let kind ← readTag patchTag [.byte, .word, .long, .jump]
  let offset ← Bytes.long
  let program ← Bytes.blob
  pure { file, line, place, kind, offset, program }

/-- Reads an object file. -/
def readContents : Reader Contents := do
  readExactly magic
  let heap ← Bytes.blob
  let sections ← readList (readSection heap)
  let symbols ← readList (readSymbol heap)
  let patches ← readList (readPatch heap)
  pure { sections, symbols, patches }

/-- What an object file with some bytes holds. Nothing may follow it. -/
def decode? (bytes : List UInt8) : Option Contents :=
  match readContents.run bytes with
  | some (contents, []) => some contents
  | _ => none

/-! ## What the readers take -/

section Pieces

variable {α β : Type}

theorem reads_exactly (bytes : List UInt8) : Reads (readExactly bytes) bytes () := by
  have h : Reads (readExactly bytes) (bytes ++ []) () :=
    (Bytes.reads_chunk bytes).bind (Reads.lift (if_pos rfl))
  rwa [List.append_nil] at h

theorem reads_name {heap : List Char} {r : HeapRef} {name : String}
    (hheap : Text.byteLength heap < UInt32.size) (h : r.Names heap name) :
    Reads (readName (Text.utf8 (String.ofList heap))) (ref r) name := by
  have hle := h.offset_add_length_le
  have ho : r.offset < UInt32.size := by omega
  have hl : r.length < UInt32.size := by omega
  have hname : (slice? (Text.utf8 (String.ofList heap)) r).bind Bytes.text? = some name := by
    rw [h.slice?]
    exact Bytes.text?_utf8 name
  rw [← List.append_nil (ref r), ref, List.append_assoc]
  refine (Bytes.reads_long ho).bind ?_
  exact (Bytes.reads_long hl).bind (Reads.lift hname)

theorem reads_optional {r : Reader α} {write : β → List UInt8} {Right : β → α → Prop}
    {b? : Option β} {a? : Option α} (hright : Option.Rel Right b? a?)
    (h : ∀ b a, Right b a → Reads r (write b) a) :
    Reads (readOptional r) (optional write b?) a? := by
  cases hright with
  | none => exact (Bytes.reads_byte 0).bind (Reads.pure none)
  | some hb => exact (Bytes.reads_byte 1).bind ((h _ _ hb).map some)

/-- Optional numbers that are written in four bytes. -/
theorem reads_optional_long {toNat : α → Nat} {ofNat : Nat → α} (hlt : ∀ n, toNat n < UInt32.size)
    (hof : ∀ n, ofNat (toNat n) = n) (n? : Option α) :
    Reads (readOptional (ofNat <$> Bytes.long)) (optional (fun n => long (toNat n)) n?) n? := by
  have hrefl : Option.Rel Eq n? n? := by
    cases n? with
    | none => exact .none
    | some n => exact .some rfl
  refine reads_optional hrefl ?_
  rintro n _ rfl
  have key := (Bytes.reads_long (hlt n)).map ofNat
  rwa [hof] at key

theorem reads_tag {tag : α → UInt8} {values : List α} {a : α}
    (h : values.find? (fun b => tag b == tag a) = some a) :
    Reads (readTag tag values) [tag a] a :=
  (Bytes.reads_byte (tag a)).bind (Reads.lift h)

/-- Entries are read one after the other, each from the bytes written for it. -/
theorem reads_entries {r : Reader α} {write : β → α → List UInt8} {Right : β → α → Prop}
    {refs : List β} {entries : List α} (hright : List.Forall₂ Right refs entries)
    (h : ∀ b, ∀ a ∈ entries, Right b a → Reads r (write b a) a) :
    Reads (readEntries r entries.length)
      ((refs.zip entries).flatMap fun (b, a) => write b a) entries := by
  induction hright with
  | nil => exact Reads.pure []
  | cons hb _ ih =>
    have hhead := h _ _ List.mem_cons_self hb
    have htail := ih fun b a ha => h b a (List.mem_cons_of_mem _ ha)
    exact hhead.bind (htail.bind_pure _)

theorem reads_list {r : Reader α} {write : β → α → List UInt8} {Right : β → α → Prop}
    {refs : List β} {entries : List α} (hlength : entries.length < UInt32.size)
    (hright : List.Forall₂ Right refs entries)
    (h : ∀ b, ∀ a ∈ entries, Right b a → Reads r (write b a) a) :
    Reads (readList r) (listBytes write refs entries) entries :=
  (Bytes.reads_long hlength).bind (reads_entries hright h)

end Pieces

/-! ## Entries of the lists -/

theorem reads_section {heap : List Char} {refs : HeapRef × HeapRef} {s : Section}
    (hheap : Text.byteLength heap < UInt32.size)
    (h : refs.1.Names heap s.name ∧ refs.2.Names heap s.file)
    (hbytes : s.bytes.size < UInt32.size) :
    Reads (readSection (Text.utf8 (String.ofList heap))) (sectionBytes refs s) s := by
  have hregion : Reads
      (readTag regionTag [.rom0, .romx, .vram, .sram, .wram0, .wramx, .oam, .hram])
      [regionTag s.region] s.region := reads_tag (by cases s.region <;> rfl)
  have haddress : Reads (readOptional (UInt16.ofNat <$> Bytes.long))
      (optional (fun n => long n.toNat) s.fixedAddress) s.fixedAddress :=
    reads_optional_long (fun n => Nat.lt_trans n.toNat_lt (by decide))
      (fun n => UInt16.ofNat_toNat) _
  have hbank : Reads (readOptional (UInt32.ofNat <$> Bytes.long))
      (optional (fun n => long n.toNat) s.bank) s.bank :=
    reads_optional_long (fun n => n.toNat_lt) (fun n => UInt32.ofNat_toNat) _
  have halignment : Reads (readOptional (UInt8.ofNat <$> Bytes.long))
      (optional (fun n => long n.toNat) s.alignment) s.alignment :=
    reads_optional_long (fun n => Nat.lt_trans n.toNat_lt (by decide))
      (fun n => UInt8.ofNat_toNat) _
  have hblob : Reads Bytes.blob (blob s.bytes.toList) s.bytes.toList := Bytes.reads_blob hbytes
  unfold readSection sectionBytes
  simp only [List.append_assoc]
  refine (reads_name hheap h.1).bind ((reads_name hheap h.2).bind ?_)
  refine hregion.bind (haddress.bind (hbank.bind (halignment.bind ?_)))
  exact hblob.bind_pure _

theorem reads_symbol {heap : List Char} {refs : HeapRef × HeapRef × Option HeapRef}
    {s : SymbolEntry} (hheap : Text.byteLength heap < UInt32.size)
    (h : refs.1.Names heap s.name ∧ refs.2.1.Names heap s.file ∧
      Option.Rel (fun r name => r.Names heap name) refs.2.2 s.place)
    (hline : s.line < UInt32.size) :
    Reads (readSymbol (Text.utf8 (String.ofList heap))) (symbolBytes refs s) s := by
  obtain ⟨hname, hfile, hplace⟩ := h
  have hkind : Reads (readTag symbolTag [.localOnly, .exported, .imported]) [symbolTag s.kind]
      s.kind := reads_tag (by cases s.kind <;> rfl)
  have hoptional : Reads (readOptional (readName (Text.utf8 (String.ofList heap))))
      (optional ref refs.2.2) s.place :=
    reads_optional hplace fun r name hr => reads_name hheap hr
  unfold readSymbol symbolBytes
  simp only [List.append_assoc]
  refine (reads_name hheap hname).bind (hkind.bind ((reads_name hheap hfile).bind ?_))
  refine (Bytes.reads_long hline).bind (hoptional.bind ?_)
  exact (Bytes.reads_word s.value.toUInt32).bind_pure _

/-- The bytes of a program are taken as they are. -/
theorem reads_patch {heap : List Char} {refs : HeapRef × HeapRef} {p : PatchEntry}
    (hheap : Text.byteLength heap < UInt32.size)
    (h : refs.1.Names heap p.file ∧ refs.2.Names heap p.place) (hline : p.line < UInt32.size)
    (hoffset : p.offset < UInt32.size) (hprogram : p.program.length < UInt32.size) :
    Reads (readPatch (Text.utf8 (String.ofList heap))) (patchBytes refs p) p := by
  have hkind : Reads (readTag patchTag [.byte, .word, .long, .jump]) [patchTag p.kind] p.kind :=
    reads_tag (by cases p.kind <;> rfl)
  unfold readPatch patchBytes
  simp only [List.append_assoc]
  refine (reads_name hheap h.1).bind ((Bytes.reads_long hline).bind ?_)
  refine (reads_name hheap h.2).bind (hkind.bind ((Bytes.reads_long hoffset).bind ?_))
  exact (Bytes.reads_blob hprogram).bind_pure _

/-! ## Object files -/

theorem reads_contents {c : Contents} (h : c.Fits) : Reads readContents c.write c := by
  rcases hsections : internAll internSection [] c.sections with ⟨sections, heap₁⟩
  rcases hsymbols : internAll internSymbol heap₁ c.symbols with ⟨symbols, heap₂⟩
  rcases hpatches : internAll internPatch heap₂ c.patches with ⟨patches, heap⟩
  have hheap : Text.byteLength heap < UInt32.size := by
    have key := h.heap
    simp only [Contents.heap, hsections, hsymbols, hpatches] at key
    exact key
  have rsections := stores_internAll stores_internSection [] c.sections
  have rsymbols := stores_internAll stores_internSymbol heap₁ c.symbols
  have rpatches := stores_internAll stores_internPatch heap₂ c.patches
  rw [hsections] at rsections
  rw [hsymbols] at rsymbols
  rw [hpatches] at rpatches
  -- Every list is read in the heap that is written, which all of them have grown into.
  have hs : Reads (readList (readSection (Text.utf8 (String.ofList heap))))
      (listBytes sectionBytes sections c.sections) c.sections :=
    reads_list h.sections (rsections.2 heap (rsymbols.1.trans rpatches.1))
      fun refs s hs hr => reads_section hheap hr (h.bytes s hs)
  have hy : Reads (readList (readSymbol (Text.utf8 (String.ofList heap))))
      (listBytes symbolBytes symbols c.symbols) c.symbols :=
    reads_list h.symbols (rsymbols.2 heap rpatches.1)
      fun refs s hs hr => reads_symbol hheap hr (h.symbolLines s hs)
  have hp : Reads (readList (readPatch (Text.utf8 (String.ofList heap))))
      (listBytes patchBytes patches c.patches) c.patches :=
    reads_list h.patches (rpatches.2 heap (List.prefix_refl heap)) fun refs p hp hr =>
      reads_patch hheap hr (h.patchLines p hp) (h.offsets p hp) (h.programs p hp)
  have hblob : Reads Bytes.blob (blob (Text.utf8 (String.ofList heap)))
      (Text.utf8 (String.ofList heap)) :=
    Bytes.reads_blob (by rwa [Text.length_utf8_ofList])
  simp only [Contents.write, hsections, hsymbols, hpatches, List.append_assoc]
  refine (reads_exactly magic).bind (hblob.bind (hs.bind (hy.bind ?_)))
  exact hp.bind_pure _

/-- Reading an object file gives back what was written, whatever the programs of its patches are. -/
theorem decode?_contents {c : Contents} (h : c.Fits) : decode? c.write = some c := by
  have key := reads_contents h []
  rw [List.append_nil] at key
  rw [decode?, key]

/-- Reading the bytes of an object gives back its sections, symbols and patches. -/
theorem decode?_write {o : Object} (h : o.Fits) :
    decode? o.write = some
      { sections := o.sections, symbols := o.symbols.map Symbol.entry,
        patches := o.patches.map Patch.entry } :=
  decode?_contents h

/-- An object whose names share their bytes: one lies inside another and is not ASCII, one reaches
over the end of a stored name into the next, and some are empty. -/
def sharedNames : Object where
  sections :=
    [{ name := "é", file := "café.asm", region := .romx, fixedAddress := some 0x4000,
       bank := some 2, bytes := #[0x3E, 0x01] },
     { name := "mé", file := "", region := .hram, alignment := some 4 }]
  symbols :=
    [{ id := 0, name := ".asmm", kind := .exported, file := "café.asm", line := 3,
       place := some "é", value := -1 },
     { id := 1, name := "", kind := .imported, file := "café", line := 0, place := none,
       value := 0 }]
  patches :=
    [{ expr := default, file := "café.asm", line := 4, place := "é", kind := .word, offset := 1,
       program := [.address 0] }]
  diagnostics := []
  printed := ""

theorem decode?_write_sharedNames :
    sharedNames.Fits ∧ decode? sharedNames.write = some
      { sections := sharedNames.sections
        symbols :=
          [{ name := ".asmm", kind := .exported, file := "café.asm", line := 3,
             place := some "é", value := -1 },
           { name := "", kind := .imported, file := "café", line := 0, place := none,
             value := 0 }]
        patches :=
          [{ file := "café.asm", line := 4, place := "é", kind := .word, offset := 1,
             program := [0x81, 0, 0, 0, 0] }] } := by
  have h : sharedNames.Fits :=
    { heap := by decide +kernel
      sections := by decide
      bytes := by decide
      symbols := by decide
      symbolLines := by decide
      patches := by decide
      patchLines := by decide
      offsets := by decide
      programs := by decide }
  exact ⟨h, decode?_write h⟩

end ObjectFormat

end Sm83Asm
