import Sm83Asm.Proofs.Layout.Lines

set_option autoImplicit false

/-!
# The sections that a state refers to

Labels, patches, symbols and the scopes that are set aside refer to sections by name, and whatever
places bytes or labels trusts the name of the open section. Along every run no such name dangles,
every section is found under its own name and asks only for what its region allows
(`scopes_sound_along_run`).

What carries the proof: an edit takes names of sections only from the open section and from labels
that are there (`Grows.each_liesIn`), and the one switch that makes a name known makes a section for
it first.
-/

namespace Sm83Asm

/-! ## What holds of every entry of a table -/

namespace Table

variable {α : Type} {P Q : String → α → Prop} {t : Table α} {key : String}

/-- Something holds of every entry. -/
def Each (P : String → α → Prop) (t : Table α) : Prop :=
  ∀ key value, (key, value) ∈ t.entries → P key value

theorem Each.of_get? (h : t.Each P) {value : α} (hget : t.get? key = some value) : P key value :=
  h key value (mem_entries_of_get? hget)

theorem Each.imp (h : t.Each P) (hpq : ∀ key value, P key value → Q key value) : t.Each Q :=
  fun key value hmem => hpq key value (h key value hmem)

theorem Each.insert (h : t.Each P) (hn : key ∉ t.keys) {value : α} (hv : P key value) :
    (t.insert key value).Each P := by
  intro other v hmem
  rw [entries_insert_of_not_mem value hn, List.mem_append, List.mem_singleton] at hmem
  rcases hmem with hmem | hmem
  · exact h other v hmem
  · cases hmem
    exact hv

theorem Each.modify (h : t.Each P) {f : α → α} (hf : ∀ value, P key value → P key (f value)) :
    (t.modify key f).Each P := by
  intro other v hmem
  rw [entries_modify, List.mem_map] at hmem
  obtain ⟨⟨k, w⟩, hw, heq⟩ := hmem
  have hP := h k w hw
  split at heq
  · rename_i hk
    cases heq
    cases hk
    exact hf w hP
  · cases heq
    exact hP

theorem Each.erase (h : t.Each P) (key : String) : (t.erase key).Each P :=
  fun other v hmem => h other v (List.mem_filter.1 hmem).1

end Table

open Layout

/-! ## Symbols that are looked up -/

/-- A symbol lies in no section or in one of those known. -/
def Symbol.LiesIn (known : List String) (s : Symbol) : Prop :=
  ∀ place, s.place = some place → place ∈ known

namespace State

variable {st : State} {known : List String} {symbols : Table Symbol}

theorem each_liesIn_symbolIn (h : symbols.Each fun _ s => s.LiesIn known) (name : String)
    {entry : Nat → Symbol} (hentry : ∀ id, (entry id).LiesIn known) :
    (symbolIn symbols name entry).2.Each fun _ s => s.LiesIn known := by
  rcases symbolIn_cases symbols name entry with ⟨-, id, -, heq⟩ | ⟨hn, heq⟩
  · rw [heq]
    exact h
  · rw [heq]
    exact h.insert hn (hentry _)

/-- A symbol that is looked up lies where its label lies, or in the open section. -/
theorem Grows.each_liesIn {a b : Table Symbol} (h : st.Grows a b)
    (hlabels : st.labels.Each fun _ label => label.place ∈ known)
    (hcurrent : ∀ place, st.current = some place → place ∈ known)
    (ha : a.Each fun _ s => s.LiesIn known) : b.Each fun _ s => s.LiesIn known := by
  induction h with
  | refl => exact ha
  | name n _ ih =>
    refine each_liesIn_symbolIn ih n fun id => ?_
    split
    · rename_i label hlabel
      intro place hplace
      obtain rfl := Option.some.inj hplace
      exact hlabels.of_get? hlabel
    · intro place hplace
      exact absurd hplace (by simp)
  | location hc offset _ ih =>
    refine each_liesIn_symbolIn ih _ fun id place hplace => ?_
    obtain rfl := Option.some.inj hplace
    exact hcurrent _ hc

end State

/-! ## The invariant -/

/-- Every name of a section that a layout refers to is one of those known. -/
structure PlacesIn (known : List String) (l : Layout) : Prop where
  current : ∀ place, l.current = some place → place ∈ known
  saved : ∀ scope ∈ l.savedScopes, ∀ place, scope.current = some place → place ∈ known
  labels : l.labels.Each fun _ label => label.place ∈ known
  patches : ∀ p ∈ l.patches, p.place ∈ known
  symbols : l.symbols.Each fun _ s => s.LiesIn known

/-- What holds of the sections of a layout between lines. -/
structure ScopesKept (l : Layout) : Prop where
  places : PlacesIn l.sections.keys l
  sections : l.sections.Each fun name s => s.name = name ∧ s.Lawful

theorem PlacesIn.mono {known known' : List String} {l : Layout} (h : PlacesIn known l)
    (hk : ∀ name ∈ known, name ∈ known') : PlacesIn known' l where
  current place hplace := hk place (h.current place hplace)
  saved scope hscope place hplace := hk place (h.saved scope hscope place hplace)
  labels := h.labels.imp fun _ label hplace => hk label.place hplace
  patches p hp := hk p.place (h.patches p hp)
  symbols := h.symbols.imp fun _ _ hs place hplace => hk place (hs place hplace)

/-- An edit refers to no section that was not referred to before. -/
theorem PlacesIn.edit {known : List String} {a b : Layout} (ha : PlacesIn known a)
    (h : Edit a b) : PlacesIn known b := by
  cases h with
  | define ho hn hp hs =>
    exact { ha with labels := ha.labels.insert hn (hp ▸ ha.current _ ho.1) }
  | relabel _ name hf =>
    refine { ha with labels := ha.labels.modify fun label hlabel => ?_ }
    rw [(hf label).1]
    exact hlabel
  | remove hn => exact { ha with labels := ha.labels.erase _ }
  | emit ho he =>
    obtain ⟨new, hnew, hplaced, -⟩ := he.patches
    refine ⟨ha.current, ha.saved, ha.labels, fun p hp => ?_,
      he.grows.each_liesIn ha.labels ha.current ha.symbols⟩
    rcases List.mem_append.1 (hnew ▸ hp.val) with hp | hp
    · exact ha.patches p ⟨hp⟩
    · rw [(hplaced.covers p hp).place_eq]
      exact ha.current _ ho.1
  | beginUnion ho => exact ⟨ha.current, ha.saved, ha.labels, ha.patches, ha.symbols⟩
  | nextMember ho hu =>
    exact ⟨ha.current, ha.saved, ha.labels, fun p hp => ha.patches p (Array.mem_filter.1 hp).1,
      ha.symbols⟩
  | endUnion pad ho hu => exact ⟨ha.current, ha.saved, ha.labels, ha.patches, ha.symbols⟩

theorem keys_sections_of_edit {a b : Layout} (h : Edit a b) :
    b.sections.keys = a.sections.keys := by
  cases h with
  | emit ho he => exact Table.keys_modify _ _ _
  | nextMember ho hu => exact Table.keys_modify _ _ _
  | endUnion pad ho hu => exact Table.keys_modify _ _ _
  | _ => rfl

/-- Other bytes in a section leave it where it is. -/
theorem each_lawful_mapBytes {l : Layout} {place : String} {f : Array UInt8 → Array UInt8}
    (h : l.sections.Each fun name s => s.name = name ∧ s.Lawful) :
    (l.mapBytes place f).sections.Each fun name s => s.name = name ∧ s.Lawful :=
  h.modify fun _ hs => ⟨hs.1, hs.2.address, hs.2.bank, hs.2.alignment⟩

theorem ScopesKept.edit {a b : Layout} (ha : ScopesKept a) (h : Edit a b) : ScopesKept b where
  places := by
    rw [keys_sections_of_edit h]
    exact ha.places.edit h
  sections := by
    cases h with
    | emit ho he =>
      apply each_lawful_mapBytes
      exact ha.sections
    | nextMember ho hu =>
      apply each_lawful_mapBytes
      exact ha.sections
    | endUnion pad ho hu =>
      apply each_lawful_mapBytes
      exact ha.sections
    | _ => exact ha.sections

theorem ScopesKept.switch {a b : Layout} (ha : ScopesKept a) (h : Switch a b) :
    ScopesKept b := by
  cases h with
  | enter hknown =>
    refine ⟨{ ha.places with current := fun place hplace => ?_ }, ha.sections⟩
    obtain rfl := Option.some.inj hplace
    exact Table.mem_keys_of_get? hknown
  | @create declared hnew hb hl =>
    have hfresh : declared.name ∉ a.sections.keys := (Table.get?_eq_none_iff _ _).1 hnew
    have hplaces : PlacesIn (a.sections.insert declared.name declared).keys a :=
      ha.places.mono fun name hname => Table.mem_keys_insert.2 (Or.inl hname)
    refine ⟨{ hplaces with current := fun place hplace => ?_ },
      ha.sections.insert hfresh ⟨rfl, hl⟩⟩
    obtain rfl := Option.some.inj hplace
    exact Table.mem_keys_insert.2 (Or.inr rfl)
  | push globalLabel =>
    refine ⟨{ ha.places with current := by simp, saved := fun scope hscope => ?_ }, ha.sections⟩
    rcases List.mem_cons.1 hscope with rfl | hscope
    · exact ha.places.current
    · exact ha.places.saved scope hscope
  | @pop scope outer hsaved =>
    have hall := ha.places.saved
    rw [hsaved] at hall
    exact ⟨{ ha.places with
      current := hall scope List.mem_cons_self
      saved := fun other hother => hall other (List.mem_cons_of_mem _ hother) }, ha.sections⟩

/-! ## Whole runs -/

/-- The sections that are open. -/
def State.openSections (st : State) : List String := st.current.toList

/-- The options in force, then those that were set aside. -/
def State.optionStack (st : State) : List Options := st.options :: st.savedOptions

namespace Assembler

/-- What a state says about its sections, scopes and options between lines. -/
structure ScopesSound (st : State) : Prop where
  one_open : st.openSections.length ≤ 1
  open_known : ∀ place ∈ st.openSections, place ∈ st.sections.keys
  /-- The open section is at hand whenever there is one. -/
  at_hand : st.section?.isSome = st.current.isSome
  saved_known : ∀ scope ∈ st.savedScopes, ∀ place, scope.current = some place →
    place ∈ st.sections.keys
  label_known : ∀ name label, (name, label) ∈ st.labels.entries →
    label.place ∈ st.sections.keys
  patch_known : ∀ p ∈ st.patches, p.place ∈ st.sections.keys
  symbol_known : ∀ name s, (name, s) ∈ st.symbols.entries → ∀ place, s.place = some place →
    place ∈ st.sections.keys
  /-- Every section is found under its own name and asks only for what its region allows. -/
  lawful : ∀ name s, (name, s) ∈ st.sections.entries → s.name = name ∧ s.Lawful
  options_left : st.optionStack ≠ []

theorem scopesSound_of_kept {st : State} (h : ScopesKept st.layout) : ScopesSound st where
  one_open := by
    unfold State.openSections
    cases st.current <;> simp
  open_known place hplace := h.places.current place (Option.mem_toList.1 hplace)
  at_hand := by
    unfold State.section?
    cases hc : st.current with
    | none => rfl
    | some place =>
      have hmem : place ∈ st.sections.keys := h.places.current place hc
      exact (Table.contains_iff st.sections place).2 hmem
  saved_known := h.places.saved
  label_known := h.places.labels
  patch_known := h.places.patches
  symbol_known := h.places.symbols
  lawful := h.sections
  options_left := List.cons_ne_nil _ _

theorem scopesKept_new (config : Config) (files : FileStore) :
    ScopesKept (new config files).state.layout where
  places := by
    refine ⟨fun place h => ?_, fun scope h => ?_, fun name label h => ?_, fun p h => ?_,
      fun name s h => ?_⟩
    all_goals exact absurd h (by simp [new, State.layout, State.ofConfig])
  sections name s h := absurd h (by simp [new, State.layout, State.ofConfig])

/-- In every state between the lines of a run at most one section is open, no name of a section
dangles, every section is lawful, and there are options in force. -/
theorem scopes_sound_along_run (config : Config) (files : FileStore) (sources : List Source) :
    ∀ asm ∈ (new config files).reached sources, ScopesSound asm.state := by
  have hkept : Kept (fun _ => True) fun a b =>
      ScopesKept a.state.layout → ScopesKept b.state.layout :=
    kept_of_layout (Q := fun a b => ScopesKept a → ScopesKept b) (fun _ h => h)
      (fun h h' ha => h' (h ha)) (fun h ha => ha.edit h) fun _ _ _ h ha => ha.switch h
  intro asm hasm
  exact scopesSound_of_kept
    (hkept.holds_reached sources (scopesKept_new config files) (fun _ _ => trivial) asm hasm)

/-- A label and a patch in a section that is set aside for another one. -/
def scopedSource : Source :=
  .text "a" " SECTION \"a\",ROMX[$4000],BANK[2]\nfoo: dw bar\n PUSHS\n SECTION \"b\",WRAM0\n"

theorem scopes_sound_along_scopedSource :
    let asm := (new {} (.memory {})).runAll [scopedSource]
    asm ∈ (new {} (.memory {})).reached [scopedSource] ∧
      asm.state.openSections = ["b"] ∧ asm.state.savedScopes.map (·.current) = [some "a"] ∧
      asm.state.labels.keys = ["foo"] ∧ asm.state.patches.size = 1 ∧ ScopesSound asm.state := by
  intro asm
  have hlast : asm ∈ (new {} (.memory {})).reached [scopedSource] := by simp [reached, asm]
  have hscopes : asm.state.openSections = ["b"] ∧
      asm.state.savedScopes.map (·.current) = [some "a"] ∧
      asm.state.labels.keys = ["foo"] ∧ asm.state.patches.size = 1 := by
    decide +kernel
  obtain ⟨hopen, hsaved, hlabels, hpatches⟩ := hscopes
  have hsound := scopes_sound_along_run {} (.memory {}) [scopedSource] asm hlast
  exact ⟨hlast, hopen, hsaved, hlabels, hpatches, hsound⟩

end Assembler

end Sm83Asm
