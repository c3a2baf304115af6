import Sm83Asm.Proofs.Layout.Lines

set_option autoImplicit false

/-!
# The table of symbols along a run

Programs for the linker refer to symbols by position, long before the table is complete. Along every
run the table only grows at its end, each symbol carries its own position and name, and each queued
program runs to exactly one value. When the assembly is finished, every label has its symbol, and
every other symbol is a place in a section or an import (`symbols_sound_along_run`).
-/

namespace Sm83Asm

open Layout

namespace Symbol

/-- The symbol of a place in a section. -/
def IsLocation (s : Symbol) : Prop :=
  ∃ place offset, s.name = State.locationName place offset ∧ s.kind = .localOnly ∧
    s.place = some place ∧ s.value = Int32.ofNat offset

/-- The symbol of a name that the assembly does not define. -/
def IsImport (s : Symbol) : Prop := s.kind = .imported ∧ s.place = none

end Symbol

/-! ## One table -/

/-- Every symbol of a table carries its own position and name, and no name occurs twice. -/
structure Indexed (symbols : Table Symbol) : Prop where
  at_position : ∀ (i : Nat) (name : String) (s : Symbol),
    symbols.entries[i]? = some (name, s) → s.id = i ∧ s.name = name
  nodup : symbols.keys.Nodup

/-- Every symbol of a table is that of a label, of a place or of an import. -/
def Accounted (labels : List String) (symbols : Table Symbol) : Prop :=
  ∀ name s, (name, s) ∈ symbols.entries → name ∈ labels ∨ s.IsLocation ∨ s.IsImport

/-- A symbol of a new name, which carries the next position. -/
theorem Indexed.insert {symbols : Table Symbol} (h : Indexed symbols) {name : String}
    (hn : name ∉ symbols.keys) {s : Symbol} (hid : s.id = symbols.size) (hname : s.name = name) :
    Indexed (symbols.insert name s) where
  at_position i other t ht := by
    rw [Table.entries_insert_of_not_mem s hn] at ht
    by_cases hi : i < symbols.entries.length
    · rw [List.getElem?_append_left hi] at ht
      exact h.at_position i other t ht
    · rw [List.getElem?_append_right (by omega), List.getElem?_singleton] at ht
      split at ht
      · rename_i hzero
        simp only [Option.some.injEq, Prod.mk.injEq] at ht
        obtain ⟨rfl, rfl⟩ := ht
        refine ⟨?_, hname⟩
        rw [hid, Table.size]
        omega
      · exact absurd ht (by simp)
  nodup := Table.nodup_keys_insert s hn h.nodup

/-- A new symbol is accounted for by its own entry. -/
theorem Accounted.insert {labels : List String} {symbols : Table Symbol}
    (h : Accounted labels symbols) {name : String} (hn : name ∉ symbols.keys) {s : Symbol}
    (hs : name ∈ labels ∨ s.IsLocation ∨ s.IsImport) :
    Accounted labels (symbols.insert name s) := by
  intro other t ht
  rw [Table.entries_insert_of_not_mem s hn] at ht
  rcases List.mem_append.1 ht with ht | ht
  · exact h other t ht
  · simp only [List.mem_singleton, Prod.mk.injEq] at ht
    obtain ⟨rfl, rfl⟩ := ht
    exact hs

/-- More labels account for more symbols. -/
theorem Accounted.mono {labels labels' : List String} {symbols : Table Symbol}
    (h : Accounted labels symbols) (hl : ∀ name ∈ labels, name ∈ labels') :
    Accounted labels' symbols :=
  fun name s hs => (h name s hs).imp_left (hl name)

namespace State

variable {st : State}

/-- A symbol is found by its name, or gets the next number. -/
theorem indexed_symbolIn {symbols : Table Symbol} (h : Indexed symbols) (name : String)
    {entry : Nat → Symbol} (hentry : ∀ id, (entry id).id = id ∧ (entry id).name = name) :
    Indexed (symbolIn symbols name entry).2 := by
  rcases symbolIn_cases symbols name entry with ⟨-, id, -, heq⟩ | ⟨hn, heq⟩
  · rw [heq]
    exact h
  · rw [heq]
    exact h.insert hn (hentry _).1 (hentry _).2

/-- A symbol that is asked for is accounted for as its entry says. -/
theorem accounted_symbolIn {labels : List String} {symbols : Table Symbol}
    (h : Accounted labels symbols) (name : String) {entry : Nat → Symbol}
    (hentry : ∀ id, name ∈ labels ∨ (entry id).IsLocation ∨ (entry id).IsImport) :
    Accounted labels (symbolIn symbols name entry).2 := by
  rcases symbolIn_cases symbols name entry with ⟨-, id, -, heq⟩ | ⟨hn, heq⟩
  · rw [heq]
    exact h
  · rw [heq]
    exact h.insert hn (hentry _)

theorem indexed_symbolId {symbols : Table Symbol} (h : Indexed symbols) (name : String) :
    Indexed (st.symbolId symbols name).2 := by
  refine indexed_symbolIn h name fun id => ?_
  split
  · exact ⟨rfl, rfl⟩
  · exact ⟨rfl, rfl⟩

theorem accounted_symbolId {symbols : Table Symbol} (h : Accounted st.labels.keys symbols)
    (name : String) : Accounted st.labels.keys (st.symbolId symbols name).2 := by
  refine accounted_symbolIn h name fun id => ?_
  split
  · rename_i label hlabel
    exact Or.inl (Table.mem_keys_of_get? hlabel)
  · exact Or.inr (Or.inr ⟨rfl, rfl⟩)

/-- Looking symbols up keeps a table in order. -/
theorem Grows.indexed {a b : Table Symbol} (h : st.Grows a b) (ha : Indexed a) : Indexed b := by
  induction h with
  | refl => exact ha
  | name n _ ih => exact indexed_symbolId ih n
  | location _ offset _ ih => exact indexed_symbolIn ih _ fun id => ⟨rfl, rfl⟩

/-- What evaluating adds to the symbols is accounted for by the labels. -/
theorem Grows.accounted {a b : Table Symbol} (h : st.Grows a b)
    (ha : Accounted st.labels.keys a) : Accounted st.labels.keys b := by
  induction h with
  | refl => exact ha
  | name n _ ih => exact accounted_symbolId ih n
  | location _ offset _ ih =>
    exact accounted_symbolIn ih _ fun id => Or.inr (Or.inl ⟨_, offset, rfl, rfl, rfl, rfl⟩)

end State

/-! ## The invariant -/

/-- What holds of the symbols of a layout between lines. -/
structure SymbolsKept (l : Layout) : Prop where
  indexed : Indexed l.symbols
  accounted : Accounted l.labels.keys l.symbols
  complete : ∀ p ∈ l.patches, Complete l.symbols p.program
  labels_nodup : l.labels.keys.Nodup

/-- Editing the open section adds symbols at the end. -/
theorem entries_prefix_of_edit {a b : Layout} (h : Edit a b) :
    a.symbols.entries <+: b.symbols.entries := by
  cases h with
  | emit ho he => exact he.grows.entries_prefix
  | _ => exact List.prefix_refl _

theorem entries_prefix_of_switch {a b : Layout} (h : Switch a b) :
    a.symbols.entries <+: b.symbols.entries := by
  cases h <;> exact List.prefix_refl _

/-- Symbols and programs stay sound while the open section is edited. -/
theorem SymbolsKept.edit {a b : Layout} (ha : SymbolsKept a) (h : Edit a b) : SymbolsKept b := by
  cases h with
  | @define _ _ _ _ entry ho hn hp hs =>
    refine ⟨ha.indexed, ha.accounted.mono fun name hname => ?_, ha.complete,
      Table.nodup_keys_insert entry hn ha.labels_nodup⟩
    rw [Table.keys_insert_of_not_mem entry hn]
    exact List.mem_append_left _ hname
  | relabel name hf =>
    refine ⟨ha.indexed, ?_, ha.complete, ?_⟩
    · rw [Table.keys_modify]
      exact ha.accounted
    · rw [Table.keys_modify]
      exact ha.labels_nodup
  | @remove _ name h =>
    -- A name that has a symbol is never removed, so every symbol of a label keeps its label.
    refine ⟨ha.indexed, fun other s hs => ?_, ha.complete,
      Table.nodup_keys_erase name ha.labels_nodup⟩
    refine (ha.accounted other s hs).imp_left fun hother => ?_
    have hne : other ≠ name := fun e => h (e ▸ List.mem_map.2 ⟨_, hs, rfl⟩)
    exact Table.mem_keys_erase.2 ⟨hother, hne⟩
  | emit ho he =>
    obtain ⟨new, hnew, -, hcomplete⟩ := he.patches
    refine ⟨he.grows.indexed ha.indexed, he.grows.accounted ha.accounted, fun p hp => ?_,
      ha.labels_nodup⟩
    -- Old programs stay complete because the table has only grown.
    rcases List.mem_append.1 (hnew ▸ hp.val) with hp | hp
    · exact (ha.complete p ⟨hp⟩).mono he.grows.size_le
    · exact hcomplete p hp
  | beginUnion ho => exact ⟨ha.indexed, ha.accounted, ha.complete, ha.labels_nodup⟩
  | nextMember ho hu =>
    exact ⟨ha.indexed, ha.accounted, fun p hp => ha.complete p (Array.mem_filter.1 hp).1,
      ha.labels_nodup⟩
  | endUnion pad ho hu => exact ⟨ha.indexed, ha.accounted, ha.complete, ha.labels_nodup⟩

/-- Symbols and programs stay sound when another section is turned to. -/
theorem SymbolsKept.switch {a b : Layout} (ha : SymbolsKept a) (h : Switch a b) :
    SymbolsKept b := by
  cases h <;> exact ⟨ha.indexed, ha.accounted, ha.complete, ha.labels_nodup⟩

/-! ## The end of an assembly -/

/-- A change that keeps numbers and names keeps the symbols in order. -/
theorem Indexed.modify {symbols : Table Symbol} (h : Indexed symbols) (name : String)
    {f : Symbol → Symbol} (hf : ∀ s, (f s).id = s.id ∧ (f s).name = s.name) :
    Indexed (symbols.modify name f) where
  at_position i other t ht := by
    rw [Table.entries_modify, List.getElem?_map] at ht
    obtain ⟨⟨key, s⟩, hs, heq⟩ := Option.map_eq_some_iff.1 ht
    obtain ⟨hid, hname⟩ := h.at_position i key s hs
    split at heq
    · cases heq
      exact ⟨(hf s).1.trans hid, (hf s).2.trans hname⟩
    · cases heq
      exact ⟨hid, hname⟩
  nodup := by
    rw [Table.keys_modify]
    exact h.nodup

namespace State

variable {st : State} {symbols : Table Symbol}

/-- Looking one name up leaves the entries of the others where they are. -/
theorem getElem?_symbolIn_of_ne {name other : String} (hne : other ≠ name) (entry : Nat → Symbol)
    (i : Nat) (s : Symbol) :
    (symbolIn symbols name entry).2.entries[i]? = some (other, s) ↔
      symbols.entries[i]? = some (other, s) := by
  rcases symbolIn_cases symbols name entry with ⟨-, id, -, heq⟩ | ⟨hn, heq⟩
  · rw [heq]
  · rw [heq, Table.entries_insert_of_not_mem _ hn]
    by_cases hi : i < symbols.entries.length
    · rw [List.getElem?_append_left hi]
    · rw [List.getElem?_append_right (by omega), List.getElem?_singleton,
        List.getElem?_eq_none (by omega)]
      split
      · simp [hne.symm]
      · simp

/-- Bringing one symbol up to date leaves the others alone. -/
theorem getElem?_syncSymbol_of_ne {name other : String} (hne : other ≠ name) (label : Label)
    (i : Nat) (s : Symbol) :
    (st.syncSymbol symbols name label).entries[i]? = some (other, s) ↔
      symbols.entries[i]? = some (other, s) := by
  have hlook : (st.symbolId symbols name).2.entries[i]? = some (other, s) ↔
      symbols.entries[i]? = some (other, s) := getElem?_symbolIn_of_ne hne _ i s
  rw [← hlook, syncSymbol, Table.entries_modify, List.getElem?_map, Option.map_eq_some_iff]
  constructor
  · rintro ⟨⟨key, t⟩, ht, heq⟩
    split at heq
    · rename_i hkey
      exact absurd ((congrArg Prod.fst heq).symm.trans hkey) hne
    · exact heq ▸ ht
  · intro hs
    exact ⟨(other, s), hs, if_neg hne⟩

theorem indexed_syncSymbol (h : Indexed symbols) (name : String) (label : Label) :
    Indexed (st.syncSymbol symbols name label) :=
  (indexed_symbolId h name).modify name fun _ => ⟨rfl, rfl⟩

/-- The symbol of a label is at hand once it is brought up to date. -/
theorem exists_getElem?_syncSymbol (st : State) (h : Indexed symbols) (name : String)
    (label : Label) :
    ∃ id, (st.syncSymbol symbols name label).entries[id]? =
      some (name, label.toSymbol id name) := by
  have hkey := getElem?_keys_symbolId st symbols name
  rw [Table.keys, List.getElem?_map] at hkey
  obtain ⟨⟨key, s⟩, hs, rfl⟩ := Option.map_eq_some_iff.1 hkey
  obtain ⟨hid, hname⟩ := (indexed_symbolId h key).at_position _ _ _ hs
  refine ⟨(st.symbolId symbols key).1, ?_⟩
  rw [syncSymbol, Table.entries_modify, List.getElem?_map, hs, Option.map_some, if_pos rfl, hid,
    hname]

/-- The symbols after those of some labels have been brought up to date. -/
def syncAll (st : State) (labels : List (String × Label)) (symbols : Table Symbol) :
    Table Symbol :=
  labels.foldl (fun symbols (name, label) => st.syncSymbol symbols name label) symbols

/-- Bringing all symbols up to date keeps them in order. -/
theorem indexed_syncAll (st : State) (labels : List (String × Label)) (h : Indexed symbols) :
    Indexed (st.syncAll labels symbols) := by
  induction labels generalizing symbols with
  | nil => exact h
  | cons p labels ih => exact ih (indexed_syncSymbol h p.1 p.2)

/-- A symbol without a label is left alone. -/
theorem getElem?_syncAll_of_not_mem (labels : List (String × Label)) {other : String}
    (hn : other ∉ labels.map Prod.fst) (i : Nat) (s : Symbol) :
    (st.syncAll labels symbols).entries[i]? = some (other, s) ↔
      symbols.entries[i]? = some (other, s) := by
  induction labels generalizing symbols with
  | nil => exact Iff.rfl
  | cons p labels ih =>
    simp only [List.map_cons, List.mem_cons, not_or] at hn
    exact (ih hn.2).trans (getElem?_syncSymbol_of_ne hn.1 p.2 i s)

/-- Afterwards every one of the labels has its symbol: those behind it have other names. -/
theorem exists_getElem?_syncAll (st : State) {labels : List (String × Label)}
    (h : Indexed symbols) (hn : (labels.map Prod.fst).Nodup) {name : String} {label : Label}
    (hmem : (name, label) ∈ labels) :
    ∃ id, (st.syncAll labels symbols).entries[id]? = some (name, label.toSymbol id name) := by
  induction labels generalizing symbols with
  | nil => exact absurd hmem (by simp)
  | cons p labels ih =>
    simp only [List.map_cons, List.nodup_cons] at hn
    rcases List.mem_cons.1 hmem with rfl | hmem
    · obtain ⟨id, hid⟩ := exists_getElem?_syncSymbol st h name label
      exact ⟨id, (getElem?_syncAll_of_not_mem labels hn.1 id _).2 hid⟩
    · exact ih (indexed_syncSymbol h p.1 p.2) hn.2 hmem

end State

namespace Assembler

/-- What the symbols of an object are, for the labels that it was made from. -/
structure SymbolsFinished (labels : Table Label) (symbols : List Symbol) : Prop where
  at_position : ∀ (i : Nat) (s : Symbol), symbols[i]? = some s → s.id = i
  of_label : ∀ name label, labels.get? name = some label → ∃ s ∈ symbols, s.name = name ∧
    s.kind = (if label.exported then .exported else .localOnly) ∧ s.file = label.file ∧
    s.line = label.startLine ∧ s.place = some label.place ∧ s.value = Int32.ofNat label.offset
  of_other : ∀ s ∈ symbols, s.name ∉ labels.keys → s.IsLocation ∨ s.IsImport

/-- The end of a label changes where it ends and its size. -/
theorem get?_closeLabel (st : State) {name : String} {label : Label}
    (h : st.labels.get? name = some label) :
    ∃ endLine size, st.closeLabel.labels.get? name = some { label with endLine, size } := by
  unfold State.closeLabel
  split
  · exact ⟨_, _, h⟩
  · dsimp only
    rw [Table.get?_modify]
    split
    · rw [h]
      exact ⟨_, _, rfl⟩
    · exact ⟨_, _, h⟩

/-- Bringing the symbols of all labels up to date gives the symbols that are asked for. -/
theorem symbolsFinished_syncAll {st : State} {symbols : Table Symbol} (hi : Indexed symbols)
    (ha : Accounted st.labels.keys symbols) (hn : st.labels.keys.Nodup) :
    SymbolsFinished st.labels (st.syncAll st.labels.entries symbols).values := by
  have hindexed := State.indexed_syncAll st st.labels.entries hi
  have hentry : ∀ (i : Nat) (s : Symbol),
      (st.syncAll st.labels.entries symbols).values[i]? = some s →
        (st.syncAll st.labels.entries symbols).entries[i]? = some (s.name, s) ∧ s.id = i := by
    intro i s hs
    rw [Table.values, List.getElem?_map] at hs
    obtain ⟨⟨key, t⟩, ht, rfl⟩ := Option.map_eq_some_iff.1 hs
    obtain ⟨hid, rfl⟩ := hindexed.at_position i key t ht
    exact ⟨ht, hid⟩
  refine ⟨fun i s hs => (hentry i s hs).2, fun name label hlabel => ?_, fun s hs hother => ?_⟩
  · obtain ⟨id, hid⟩ := State.exists_getElem?_syncAll st hi hn
      (Table.mem_entries_of_get? hlabel)
    exact ⟨_, List.mem_map.2 ⟨_, List.mem_of_getElem? hid, rfl⟩, rfl, rfl, rfl, rfl, rfl, rfl⟩
  · obtain ⟨i, hi⟩ := List.getElem?_of_mem hs
    have hold :=
      (State.getElem?_syncAll_of_not_mem st.labels.entries hother i s).1 (hentry i s hi).1
    rcases ha _ _ (List.mem_of_getElem? hold) with hlabel | h
    · exact absurd hlabel hother
    · exact h

/-- The object of an assembly whose symbols are kept. -/
theorem symbolsFinished_finish {asm : Assembler} (h : SymbolsKept asm.state.layout) :
    SymbolsFinished asm.state.labels asm.finish.symbols := by
  let reported : State := { asm.state.record (finalReports asm.state) with pendingExports := [] }
  obtain ⟨openLabel, labels, hclose, hkeys, -⟩ := reported.closeLabel_footprint
  have hsame : reported.closeLabel.labels.keys = asm.state.labels.keys ∧
      reported.closeLabel.symbols = asm.state.symbols := by
    rw [hclose]
    exact ⟨hkeys, rfl⟩
  have hclosed : SymbolsFinished reported.closeLabel.labels asm.finish.symbols := by
    refine symbolsFinished_syncAll ?_ ?_ ?_
    · rw [hsame.2]
      exact h.indexed
    · rw [hsame.1, hsame.2]
      exact h.accounted
    · rw [hsame.1]
      exact h.labels_nodup
  refine ⟨hclosed.at_position, fun name label hlabel => ?_, fun s hs hother => ?_⟩
  · obtain ⟨endLine, size, hlabel'⟩ := get?_closeLabel reported hlabel
    exact hclosed.of_label name { label with endLine, size } hlabel'
  · exact hclosed.of_other s hs (hsame.1 ▸ hother)

/-! ## Whole runs -/

/-- A program that a table of symbols lets the linker run. -/
structure Runs (symbols : Table Symbol) (program : Link.Program) : Prop where
  /-- The program runs without missing a value and ends with exactly one. -/
  one_value : ∀ w, ∃ n, Link.run w symbols.keys program [] = some [n]
  /-- Every position in the program is one of the table. -/
  below : ∀ i ∈ program, ∀ id, i.symbol? = some id → id < symbols.size

/-- What holds of the symbols and programs of a state between lines. -/
structure SymbolsSound (st : State) : Prop where
  /-- Every symbol carries its own position and is found under its own name. -/
  at_position : ∀ (i : Nat) (name : String) (s : Symbol),
    st.symbols.entries[i]? = some (name, s) → s.id = i ∧ s.name = name
  /-- Every queued program runs. -/
  runs : ∀ p ∈ st.patches, Runs st.symbols p.program
  /-- The bytes of every queued program are those of a program that runs, and of no other one than
  the queued program while positions fit into four bytes. -/
  readable : ∀ p ∈ st.patches, (∀ i ∈ p.program, i.NameFits) →
    ∃ program, Link.read? (Link.bytes p.program) = some program ∧ Runs st.symbols program ∧
      (st.symbols.size ≤ UInt32.size → program = p.program)

/-- A program that names known symbols runs and reads back. -/
theorem runs_of_complete {symbols : Table Symbol} {program : Link.Program}
    (h : Complete symbols program) : Runs symbols program where
  one_value w := by
    obtain ⟨stack, hrun, hlength⟩ := Link.exists_run_of_depthAfter? w symbols.keys program []
      (h.1 0) (by rw [Table.length_keys]; exact h.2)
    obtain ⟨n, rfl⟩ := List.length_eq_one_iff.1 hlength
    exact ⟨n, hrun⟩
  below := h.2

/-- What is kept along a run makes the symbols sound. -/
theorem symbolsSound_of_kept {st : State} (h : SymbolsKept st.layout) : SymbolsSound st where
  at_position := h.indexed.at_position
  runs p hp := runs_of_complete (h.complete p hp)
  readable p hp hnames := by
    obtain ⟨hone, hbelow⟩ := h.complete p hp
    have hread : Complete st.symbols (p.program.map Link.Instr.reread) :=
      ⟨fun n => (Link.depthAfter?_map_reread n _).trans (hone n), hbelow.map_reread⟩
    refine ⟨_, Link.read?_bytes p.program hnames, runs_of_complete hread, fun hsize => ?_⟩
    have hfits : ∀ i ∈ p.program, i.Fits := fun i hi =>
      ⟨hnames i hi, fun id hid => Nat.lt_of_lt_of_le (hbelow i hi id hid) hsize⟩
    exact Option.some.inj
      ((Link.read?_bytes p.program hnames).symm.trans (Link.read?_bytes_of_fits p.program hfits))

/-- At the start there are no symbols and no programs. -/
theorem symbolsKept_new (config : Config) (files : FileStore) :
    SymbolsKept (new config files).state.layout where
  indexed := ⟨fun i name s h => absurd h (by simp [new, State.layout, State.ofConfig]), .nil⟩
  accounted name s h := absurd h (by simp [new, State.layout, State.ofConfig])
  complete p h := absurd h (by simp [new, State.layout, State.ofConfig])
  labels_nodup := .nil

/-- In every state between the lines of a run the symbols are sound, and finishing there gives
every label its symbol; and no symbol is ever changed, moved or removed on the way. -/
theorem symbols_sound_along_run (config : Config) (files : FileStore) (sources : List Source) :
    (∀ asm ∈ (new config files).reached sources,
        SymbolsSound asm.state ∧ SymbolsFinished asm.state.labels asm.finish.symbols) ∧
      ((new config files).reached sources).Pairwise fun a b =>
        a.state.symbols.entries <+: b.state.symbols.entries := by
  have hkept : Kept (fun _ => True) fun a b =>
      SymbolsKept a.state.layout → SymbolsKept b.state.layout :=
    kept_of_layout (Q := fun a b => SymbolsKept a → SymbolsKept b) (fun _ h => h)
      (fun h h' ha => h' (h ha)) (fun h ha => ha.edit h) fun _ _ _ h ha => ha.switch h
  have hprefix : Kept (fun _ => True) fun a b =>
      a.state.symbols.entries <+: b.state.symbols.entries :=
    kept_of_layout (Q := fun a b => a.symbols.entries <+: b.symbols.entries)
      (fun _ => List.prefix_refl _) List.IsPrefix.trans entries_prefix_of_edit
      fun _ _ _ => entries_prefix_of_switch
  refine ⟨fun asm hasm => ?_, hprefix.pairwise_reached sources _ fun _ _ => trivial⟩
  have h := hkept.holds_reached sources (symbolsKept_new config files) (fun _ _ => trivial) asm hasm
  exact ⟨symbolsSound_of_kept h, symbolsFinished_finish h⟩

end Assembler

end Sm83Asm
