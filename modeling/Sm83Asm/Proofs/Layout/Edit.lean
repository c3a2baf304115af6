import Mathlib.Logic.Relation
import Sm83Asm.Proofs.Execute.Footprint
import Sm83Asm.Proofs.Layout.Declaration
import Sm83Asm.Proofs.Layout.Emission

set_option autoImplicit false

/-!
# How a line changes the layout

The layout of a state is what it knows about labels, sections, symbols and patches, and which
section is open. This module says once what can be done to it: a line makes some edits (`Edit`), and
one that opens a section, sets one aside or goes back to one then makes a switch (`Switch`). It
gives the edits and switches of everything that has to do with labels, bytes, unions and sections.
Most edits only add bytes and patches at the end of the open section, if anything (`Writes`).
-/

namespace Sm83Asm

/-- The part of a state that ends up in the object, and the section that is open. -/
structure Layout where
  labels : Table Label
  sections : Table Section
  symbols : Table Symbol
  patches : Array Patch
  current : Option String
  unions : List Union
  savedScopes : List SectionScope

/-- The layout of a state. -/
def State.layout (st : State) : Layout :=
  { labels := st.labels
    sections := st.sections
    symbols := st.symbols
    patches := st.patches
    current := st.current
    unions := st.unions
    savedScopes := st.savedScopes }

namespace Layout

/-- Changes the bytes of a section. -/
def mapBytes (l : Layout) (place : String) (f : Array UInt8 → Array UInt8) : Layout :=
  { l with sections := l.sections.modify place fun s => { s with bytes := f s.bytes } }

/-- The section of a name is open and has a body. -/
def IsOpen (l : Layout) (place : String) (body : Section) : Prop :=
  l.current = some place ∧ l.sections.get? place = some body

/-- A change that leaves the open section open. -/
inductive Edit : Layout → Layout → Prop
  | define {l : Layout} {place : String} {body : Section} {name : String} {entry : Label}
      (ho : l.IsOpen place body) (hn : name ∉ l.labels.keys) (hp : entry.place = place)
      (hs : entry.offset = body.bytes.size) :
      Edit l { l with labels := l.labels.insert name entry }
  | relabel (l : Layout) (name : String) {f : Label → Label}
      (hf : ∀ label, (f label).place = label.place ∧ (f label).offset = label.offset) :
      Edit l { l with labels := l.labels.modify name f }
  | remove {l : Layout} {name : String} (h : name ∉ l.symbols.keys) :
      Edit l { l with labels := l.labels.erase name }
  | emit {st : State} {place : String} {body : Section} {bytes : List UInt8} {after : Emission}
      (ho : st.layout.IsOpen place body)
      (he : st.Emitted place body.bytes.size bytes st.emission after) :
      Edit st.layout
        ({ st.layout with symbols := after.linkage.symbols, patches := after.patches }.mapBytes
          place (· ++ bytes.toArray))
  | beginUnion {l : Layout} {place : String} {body : Section} (ho : l.IsOpen place body) :
      Edit l { l with unions := ⟨body.bytes.size, 0⟩ :: l.unions }
  | nextMember {l : Layout} {place : String} {body : Section} {u : Union} {outer : List Union}
      (ho : l.IsOpen place body) (hu : l.unions = u :: outer) :
      Edit l
        ({ l with
            unions := { u with length := max u.length (body.bytes.size - u.offset) } :: outer
            patches := l.patches.filter (State.keepsPatch (some place) u.offset) }.mapBytes
          place (·.take u.offset))
  | endUnion {l : Layout} {place : String} {body : Section} {u : Union} {outer : List Union}
      (pad : UInt8) (ho : l.IsOpen place body) (hu : l.unions = u :: outer) :
      Edit l
        ({ l with unions := outer }.mapBytes place fun bytes =>
          State.resize bytes (u.offset + max u.length (body.bytes.size - u.offset)) pad)

/-- A change of the open section. -/
inductive Switch : Layout → Layout → Prop
  | enter {l : Layout} {name : String} {known : Section} (h : l.sections.get? name = some known) :
      Switch l { l with current := some name }
  | create {l : Layout} {declared : Section} (h : l.sections.get? declared.name = none)
      (hb : declared.bytes = #[]) (hl : declared.Lawful) :
      Switch l
        { l with
          sections := l.sections.insert declared.name declared
          current := some declared.name }
  | push (l : Layout) (globalLabel : Option String) :
      Switch l
        { l with
          savedScopes := ⟨l.current, l.unions, globalLabel⟩ :: l.savedScopes
          current := none
          unions := [] }
  | pop {l : Layout} {scope : SectionScope} {outer : List SectionScope}
      (h : l.savedScopes = scope :: outer) :
      Switch l
        { l with savedScopes := outer, current := scope.current, unions := scope.unions }

/-- Some edits, one after the other. -/
abbrev Edits : Layout → Layout → Prop := Relation.ReflTransGen Edit

/-- The open section gets no more than bytes at its end, with patches for them. Nothing is said of
names. -/
structure Fills (a b : Layout) : Prop where
  current : b.current = a.current
  unions : b.unions = a.unions
  grown : ∀ place body, a.IsOpen place body → ∃ (bytes : Array UInt8) (new : List Patch),
    b.sections.get? place = some { body with bytes := body.bytes ++ bytes } ∧
      b.patches = a.patches ++ new.toArray ∧
      ∀ p ∈ new, p.place = place ∧ body.bytes.size ≤ p.offset

/-- What leaves places, unions and patches alone fills nothing in. -/
theorem Fills.of_eq {a b : Layout} (hc : b.current = a.current) (hu : b.unions = a.unions)
    (hs : b.sections = a.sections) (hp : b.patches = a.patches) : Fills a b where
  current := hc
  unions := hu
  grown place body ho := by
    refine ⟨#[], [], ?_, ?_, by simp⟩
    · rw [hs, ho.2, Array.append_empty]
    · rw [hp, Array.append_empty]

theorem Fills.refl (a : Layout) : Fills a a := .of_eq rfl rfl rfl rfl

/-- Only the labels are others. -/
theorem Fills.relabelled (l : Layout) (labels : Table Label) : Fills l { l with labels } :=
  .of_eq rfl rfl rfl rfl

/-- Filling in twice is filling in. -/
theorem Fills.trans {a b c : Layout} (h : Fills a b) (h' : Fills b c) : Fills a c where
  current := h'.current.trans h.current
  unions := h'.unions.trans h.unions
  grown place body ho := by
    obtain ⟨bytes, new, hs, hp, hnew⟩ := h.grown place body ho
    obtain ⟨more, later, hs', hp', hlater⟩ := h'.grown place _ ⟨h.current.trans ho.1, hs⟩
    refine ⟨bytes ++ more, new ++ later, ?_, ?_, fun p hmem => ?_⟩
    · rw [hs', Array.append_assoc]
    · rw [hp', hp, Array.append_assoc]
      simp
    · rcases List.mem_append.1 hmem with hmem | hmem
      · exact hnew p hmem
      · obtain ⟨hplace, hle⟩ := hlater p hmem
        rw [Array.size_append] at hle
        exact ⟨hplace, by omega⟩

/-- Some edits that all do no more than this. -/
abbrev Writes : Layout → Layout → Prop := Relation.ReflTransGen fun a b => Edit a b ∧ Fills a b

/-- Writing behind the end is one way to edit the open section. -/
theorem Writes.edits {a b : Layout} (h : Writes a b) : Edits a b := by
  induction h with
  | refl => exact .refl
  | tail _ h ih => exact ih.tail h.1

/-- Writing behind the end fills in nothing in front of it. -/
theorem Writes.fills {a b : Layout} (h : Writes a b) : Fills a b := by
  induction h with
  | refl => exact .refl a
  | tail _ h ih => exact ih.trans h.2

/-- What a line does to the layout: some edits, and a switch at the end if it may make one. -/
def Turns (switches : Bool) (a b : Layout) : Prop :=
  Edits a b ∨ switches = true ∧ ∃ mid, Edits a mid ∧ mid.unions = a.unions ∧ Switch mid b

/-- Editing the section that is open before another one is turned to. -/
theorem Turns.of_edits {k : Bool} {a b c : Layout} (h : Turns k b c) (hab : Edits a b)
    (hu : b.unions = a.unions) : Turns k a c := by
  rcases h with h | ⟨hk, mid, hmid, hunions, hswitch⟩
  · exact Or.inl (hab.trans h)
  · exact Or.inr ⟨hk, mid, hab.trans hmid, hunions.trans hu, hswitch⟩

end Layout

open Layout

namespace State

variable (st : State)

/-- Writing nothing is a way of writing. -/
theorem writes_of_layout_eq {st st' : State} (h : st'.layout = st.layout) :
    Writes st.layout st'.layout := by
  rw [h]

/-- Editing nothing is a way of editing. -/
theorem edits_of_layout_eq {st st' : State} (h : st'.layout = st.layout) :
    Edits st.layout st'.layout :=
  (writes_of_layout_eq h).edits

/-! ## Labels -/

/-- Ending a label changes its size and its last line, in whatever layout it stands. -/
theorem closeLabel_footprint : ∃ openLabel labels,
    st.closeLabel = { st with openLabel, labels } ∧ labels.keys = st.labels.keys ∧
      ∀ l : Layout, l.labels = st.labels → Writes l { l with labels } := by
  unfold closeLabel
  split
  · exact ⟨_, _, rfl, rfl, fun l h => h ▸ .refl⟩
  · rename_i name hname
    refine ⟨_, _, rfl, Table.keys_modify _ _ _, fun l h => ?_⟩
    rw [← h]
    exact .single ⟨.relabel l name fun label => ⟨rfl, rfl⟩, .relabelled l _⟩

/-- The open section has a name and stands in the table. -/
theorem isOpen_of_section? {body : Section} (h : st.section? = some body) :
    ∃ place, st.layout.IsOpen place body :=
  Option.bind_eq_some_iff.1 h

/-- There is an offset only in an open section, whose bytes it counts. -/
theorem isOpen_of_offset? {start : Nat} (h : st.offset? = some start) :
    ∃ place body, st.layout.IsOpen place body ∧ body.bytes.size = start := by
  obtain ⟨body, hbody, hsize⟩ := Option.map_eq_some_iff.1 h
  obtain ⟨place, hopen⟩ := st.isOpen_of_section? hbody
  exact ⟨place, body, hopen, hsize⟩

/-- Defining a label changes no more than the labels. -/
theorem defineLabel_footprint (label : LabelDef) :
    Writes st.layout (st.defineLabel label).layout ∧
      ∃ labels, (st.defineLabel label).layout = { st.layout with labels } := by
  unfold defineLabel
  dsimp only
  split
  · rename_i place body hc hb
    split
    · exact ⟨.refl, _, rfl⟩
    · rename_i full hq
      split
      · exact ⟨.refl, _, rfl⟩
      · rename_i hnew
        obtain ⟨openLabel, labels, hclose, hkeys, hwrites⟩ := st.closeLabel_footprint
        rw [hclose]
        have hopen : ({ st.layout with labels } : Layout).IsOpen place body := by
          refine ⟨hc, ?_⟩
          rw [section?, hc] at hb
          exact hb
        have hfresh : full ∉ labels.keys := by
          rw [hkeys, ← Table.contains_iff]
          simp only [Bool.or_eq_true, not_or] at hnew
          exact hnew.1
        exact ⟨(hwrites st.layout rfl).tail
          ⟨.define hopen hfresh rfl rfl, .relabelled { st.layout with labels } _⟩, _, rfl⟩
  · exact ⟨.refl, _, rfl⟩

/-- A label writes no bytes. -/
theorem writes_defineLabel? (label : Option LabelDef) :
    Writes st.layout (st.defineLabel? label).layout := by
  cases label with
  | none => exact .refl
  | some label => exact (st.defineLabel_footprint label).1

/-- A label changes the labels and nothing else of the layout. -/
theorem defineLabel?_layout (label : Option LabelDef) :
    ∃ labels, (st.defineLabel? label).layout = { st.layout with labels } := by
  cases label with
  | none => exact ⟨_, rfl⟩
  | some label => exact (st.defineLabel_footprint label).2

theorem writes_exportOne (e : Expr) : Writes st.layout (st.exportOne e).layout := by
  unfold exportOne
  split
  · split
    · exact .refl
    · rename_i full hq
      split
      · exact .single ⟨.relabel (f := fun l => { l with exported := true }) st.layout full
          fun _ => ⟨rfl, rfl⟩, .relabelled st.layout _⟩
      · split
        · exact .refl
        · exact .refl
  · exact .refl

/-- Exporting writes no bytes. -/
theorem writes_exportAll (names : List Expr) : Writes st.layout (st.exportAll names).layout := by
  unfold exportAll
  induction names generalizing st with
  | nil => exact .refl
  | cons e es ih => exact (st.writes_exportOne e).trans (ih _)

/-- Only a label without a symbol is removed. -/
theorem writes_purgeOne (e : Expr) : Writes st.layout (st.purgeOne e).layout := by
  unfold purgeOne
  dsimp only
  split
  · split
    · exact .refl
    · exact .refl
  · split
    · exact .refl
    · rename_i hsym
      refine .single ⟨.remove (l := st.layout) ?_, .relabelled st.layout _⟩
      rwa [Table.contains_iff] at hsym

/-- Removing names writes no bytes. -/
theorem writes_purge (names : List Expr) : Writes st.layout (st.purge names).layout := by
  unfold purge
  induction names generalizing st with
  | nil => exact .refl
  | cons e es ih => exact (st.writes_purgeOne e).trans (ih _)

/-! ## Bytes -/

/-- The bytes of the open section are those of its entry in the layout. -/
theorem layout_mapBytes {place : String} (hc : st.current = some place)
    (f : Array UInt8 → Array UInt8) : (st.mapBytes f).layout = st.layout.mapBytes place f := by
  unfold State.mapBytes
  split
  · rename_i name hname
    obtain rfl : name = place := Option.some.inj (hname.symm.trans hc)
    rfl
  · rename_i hnone
    rw [hc] at hnone
    exact absurd hnone (by simp)

theorem layout_emit_empty : (st.emit #[]).layout = st.layout := by
  unfold emit State.mapBytes
  split
  · simp only [Array.append_empty, Table.modify_eq_self fun _ => rfl]
  · rfl

/-- Bytes at the end of the open section, with the patches that come with them. -/
theorem fills_emitted {place : String} {body : Section} (ho : st.layout.IsOpen place body)
    {bytes : List UInt8} {after : Emission}
    (he : st.Emitted place body.bytes.size bytes st.emission after) :
    Fills st.layout
      ({ st.layout with symbols := after.linkage.symbols, patches := after.patches }.mapBytes
        place (· ++ bytes.toArray)) where
  current := rfl
  unions := rfl
  grown place' body' ho' := by
    obtain rfl : place = place' := Option.some.inj (ho.1.symm.trans ho'.1)
    obtain rfl : body = body' := Option.some.inj (ho.2.symm.trans ho'.2)
    obtain ⟨new, hnew, hplaced, -⟩ := he.patches
    refine ⟨bytes.toArray, new, ?_, ?_, fun p hp => ?_⟩
    · show (st.layout.sections.modify place _).get? place = _
      rw [Table.get?_modify, if_pos rfl, ho.2]
      rfl
    · apply Array.toList_inj.1
      rw [Array.toList_append, List.toList_toArray]
      exact hnew
    · exact ⟨(hplaced.covers p hp).place_eq, (hplaced.covers p hp).start_le⟩

/-- Placing bytes that come with their patches. -/
theorem writes_emitting {α : Type} {place : String} {body : Section}
    (ho : st.layout.IsOpen place body) {x : Act Emission α} {render : α → List UInt8}
    (hx : st.Emits place body.bytes.size render x) :
    Writes st.layout ((st.emitting x).2.emit (render (st.emitting x).1).toArray).layout := by
  rw [emit, layout_mapBytes _ (show (st.emitting x).2.current = some place from ho.1)]
  exact .single ⟨.emit ho (hx st.emission), st.fills_emitted ho (hx st.emission)⟩

/-- Placing bytes that need no patches. -/
theorem writes_emit {place : String} {body : Section} (ho : st.layout.IsOpen place body)
    (bytes : Array UInt8) : Writes st.layout (st.emit bytes).layout := by
  rw [emit, layout_mapBytes _ ho.1]
  have he : st.Emitted place body.bytes.size bytes.toList st.emission st.emission :=
    .of_untouched ⟨rfl, rfl⟩ _
  exact .single ⟨.emit ho he, st.fills_emitted ho he⟩

/-- Data is written behind the end of the open section, with its patches. -/
theorem writes_data (keyword : Keyword) (word : Token) (items : List Expr) :
    Writes st.layout (st.data keyword word items).layout := by
  unfold data
  cases hs : st.offset? with
  | none => exact .refl
  | some start =>
    obtain ⟨place, body, ho, rfl⟩ := st.isOpen_of_offset? hs
    exact st.writes_emitting ho (st.scope.emits_dataItems ho.1 keyword items _)

theorem layout_numberD (default : Int32) (e : Option Expr) :
    (st.numberD default e).2.layout = st.layout := by
  obtain ⟨_, _, h⟩ := st.numberD_footprint default e
  rw [h]
  rfl

/-- Reserved bytes are written behind the end of the open section. -/
theorem writes_reserve (word : Token) (count : Expr) (fill : Option Expr) :
    Writes st.layout (st.reserve word count fill).layout := by
  unfold reserve
  cases hs : st.offset? with
  | none => exact .refl
  | some start =>
    obtain ⟨place, body, ho, -⟩ := st.isOpen_of_offset? hs
    have hlayout := (st.number count).2.layout_numberD
      (Int32.ofNat (st.number count).2.options.pad.toNat) fill
    dsimp only
    rcases hn : (st.number count).2.numberD _ fill with ⟨byte, st'⟩
    rw [hn] at hlayout
    change st'.layout = st.layout at hlayout
    rw [← hlayout] at ho ⊢
    split
    · exact .refl
    · split
      · exact .refl
      · exact st'.writes_emit ho _

/-! ## Unions -/

/-- A union begins where the open section ends. -/
theorem edits_beginUnion (word : Token) : Edits st.layout (st.beginUnion word).layout := by
  unfold beginUnion
  cases hs : st.offset? with
  | none => exact .refl
  | some start =>
    obtain ⟨place, body, ho, rfl⟩ := st.isOpen_of_offset? hs
    exact .single (.beginUnion ho)

/-- What is counted at the end of a member of a union. -/
theorem of_countMember? {u : Union} {outer : List Union} (h : st.countMember? = some (u, outer)) :
    ∃ place body inner, st.layout.IsOpen place body ∧ st.unions = inner :: outer ∧
      u = { inner with length := max inner.length (body.bytes.size - inner.offset) } := by
  unfold countMember? at h
  split at h
  · rename_i stop inner rest hs hu
    obtain ⟨place, body, ho, rfl⟩ := st.isOpen_of_offset? hs
    simp only [Option.some.injEq, Prod.mk.injEq] at h
    obtain ⟨rfl, rfl⟩ := h
    exact ⟨place, body, inner, ho, hu, rfl⟩
  · exact absurd h (by simp)

/-- The next member of a union goes back to its start. -/
theorem edits_nextMember (word : Token) : Edits st.layout (st.nextMember word).layout := by
  unfold nextMember
  split
  · exact .refl
  · rename_i u outer h
    obtain ⟨place, body, inner, ho, hu, rfl⟩ := st.of_countMember? h
    have hedit := Edit.nextMember ho hu
    show Edits st.layout { (st.mapBytes (·.take inner.offset)).layout with
      unions := { inner with length := max inner.length (body.bytes.size - inner.offset) } :: outer
      patches := st.patches.filter (keepsPatch st.current inner.offset) }
    rw [st.layout_mapBytes ho.1, show st.current = some place from ho.1]
    exact .single hedit

/-- The end of a union goes to the end of its longest member. -/
theorem edits_endUnion (word : Token) : Edits st.layout (st.endUnion word).layout := by
  unfold endUnion
  split
  · exact .refl
  · rename_i u outer h
    obtain ⟨place, body, inner, ho, hu, rfl⟩ := st.of_countMember? h
    have hedit := Edit.endUnion st.options.pad ho hu
    show Edits st.layout { (st.mapBytes (resize · _ st.options.pad)).layout with unions := outer }
    rw [st.layout_mapBytes ho.1]
    exact .single hedit

/-! ## Sections -/

/-- A section that is opened is empty if it is new. -/
theorem turns_openSection {declared : Section} (hb : declared.bytes = #[])
    (hl : declared.Lawful) (token : Token) :
    Turns true st.layout (st.openSection declared token).layout := by
  unfold openSection
  dsimp only
  split
  · rename_i known hknown
    split
    · obtain ⟨openLabel, labels, h, -, hwrites⟩ := st.closeLabel_footprint
      rw [h]
      exact Or.inr ⟨rfl, _, (hwrites st.layout rfl).edits, rfl, .enter hknown⟩
    · exact Or.inl .refl
  · rename_i hnew
    obtain ⟨openLabel, labels, h, -, hwrites⟩ := closeLabel_footprint
      { st with sections := st.sections.insert declared.name declared }
    rw [h]
    exact Or.inr ⟨rfl, _, (hwrites st.layout rfl).edits, rfl, .create hnew hb hl⟩

/-- `SECTION` turns to a section, or reports and turns to none. -/
theorem turns_beginSection (name kind : Expr) (attrs : List Expr) :
    Turns true st.layout (st.beginSection name kind attrs).layout := by
  obtain ⟨random, diagnostics, h | ⟨declared, hbytes, hlawful, h⟩⟩ :=
    st.beginSection_cases name kind attrs
  · exact Or.inl (edits_of_layout_eq (by rw [h]; rfl))
  · rw [h]
    exact { st with random, diagnostics }.turns_openSection hbytes hlawful name.token

/-- Setting a section aside leaves none open. -/
theorem turns_pushSection : Turns true st.layout st.pushSection.layout := by
  unfold pushSection
  obtain ⟨openLabel, labels, h, -, hwrites⟩ := st.closeLabel_footprint
  rw [h]
  exact Or.inr ⟨rfl, _, (hwrites st.layout rfl).edits, rfl, .push _ st.globalLabel⟩

/-- Taking a section back turns to the one that was set aside last. -/
theorem turns_popSection (word : Token) : Turns true st.layout (st.popSection word).layout := by
  unfold popSection
  obtain ⟨openLabel, labels, h, -, hwrites⟩ := st.closeLabel_footprint
  rw [h]
  dsimp only
  split
  · exact Or.inl (hwrites st.layout rfl).edits
  · rename_i scope outer hsaved
    exact Or.inr ⟨rfl, _, (hwrites st.layout rfl).edits, rfl, .pop hsaved⟩

end State

end Sm83Asm
