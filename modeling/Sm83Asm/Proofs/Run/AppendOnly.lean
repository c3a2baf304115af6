import Sm83Asm.Proofs.Run.Changes

set_option autoImplicit false

/-!
# Stores that only grow

Diagnostics, printed text, symbols and sections are never taken back. Bytes and patches are taken
back by `NEXTU` only, and names by `PURGE` only. Each of the three is a relation between stores
that is checked once against every change and then holds over a line with all that it expands to.

Main statement: `stores_grow_along_line`.
-/

namespace Sm83Asm

/-! ## Tables that keep what they hold -/

namespace Table

variable {α : Type} {R : α → α → Prop}

/-- Every key of a table is present in another one, with a related value. -/
def Keeps (R : α → α → Prop) (a b : Table α) : Prop :=
  ∀ key value, a.get? key = some value → ∃ value', b.get? key = some value' ∧ R value value'

/-- Every entry of a table stands at the same place in another one, with a related value. -/
def Extends (R : α → α → Prop) (a b : Table α) : Prop :=
  ∀ (i : Nat) (key : String) (value : α), a.entries[i]? = some (key, value) →
    ∃ value', b.entries[i]? = some (key, value') ∧ R value value'

theorem Keeps.refl (hR : ∀ v, R v v) (t : Table α) : t.Keeps R t :=
  fun _ value h => ⟨value, h, hR value⟩

theorem Keeps.trans (hR : ∀ u v w, R u v → R v w → R u w) {a b c : Table α}
    (hab : a.Keeps R b) (hbc : b.Keeps R c) : a.Keeps R c := by
  intro key value h
  obtain ⟨value', h', hr⟩ := hab key value h
  obtain ⟨value'', h'', hr'⟩ := hbc key value' h'
  exact ⟨value'', h'', hR _ _ _ hr hr'⟩

/-- A new entry keeps all that stood in front of it. -/
theorem keeps_insert (hR : ∀ v, R v v) {t : Table α} {key : String} (value : α)
    (h : key ∉ t.keys) : t.Keeps R (t.insert key value) := by
  intro other v hv
  have hne : other ≠ key := fun he => h (he ▸ mem_keys_of_get? hv)
  refine ⟨v, ?_, hR v⟩
  rw [get?_insert_of_not_mem value h, if_neg hne, hv]

/-- A change keeps the entries if it keeps the changed one. -/
theorem keeps_modify (hR : ∀ v, R v v) {t : Table α} {key : String} {f : α → α}
    (hf : ∀ v, t.get? key = some v → R v (f v)) : t.Keeps R (t.modify key f) := by
  intro other v hv
  by_cases he : other = key
  · subst he
    refine ⟨f v, ?_, hf v hv⟩
    rw [get?_modify, if_pos rfl, hv]
    rfl
  · refine ⟨v, ?_, hR v⟩
    rw [get?_modify, if_neg he, hv]

theorem Extends.refl (hR : ∀ v, R v v) (t : Table α) : t.Extends R t :=
  fun _ _ value h => ⟨value, h, hR value⟩

/-- Entries that are extended twice. -/
theorem Extends.trans (hR : ∀ u v w, R u v → R v w → R u w) {a b c : Table α}
    (hab : a.Extends R b) (hbc : b.Extends R c) : a.Extends R c := by
  intro i key value h
  obtain ⟨value', h', hr⟩ := hab i key value h
  obtain ⟨value'', h'', hr'⟩ := hbc i key value' h'
  exact ⟨value'', h'', hR _ _ _ hr hr'⟩

/-- A new key goes to the end. -/
theorem extends_insert (hR : ∀ v, R v v) {t : Table α} {key : String} (value : α)
    (h : key ∉ t.keys) : t.Extends R (t.insert key value) := by
  intro i other v hv
  obtain ⟨hi, -⟩ := List.getElem?_eq_some_iff.1 hv
  refine ⟨v, ?_, hR v⟩
  rw [entries_insert_of_not_mem value h, List.getElem?_append_left hi, hv]

/-- A change extends the entries if it extends whatever is changed. -/
theorem extends_modify (hR : ∀ v, R v v) (t : Table α) (key : String) {f : α → α}
    (hf : ∀ v, R v (f v)) : t.Extends R (t.modify key f) := by
  intro i other v hv
  rw [entries_modify, List.getElem?_map, hv, Option.map_some]
  split
  · exact ⟨f v, rfl, hf v⟩
  · exact ⟨v, rfl, hR v⟩

end Table

/-! ## Stores that grow -/

/-- A section whose contents may have changed, and nothing else. -/
def Section.SameHeading (a b : Section) : Prop := b = { a with bytes := b.bytes }

theorem Section.SameHeading.refl (s : Section) : s.SameHeading s := rfl

theorem Section.SameHeading.trans {a b c : Section} (h : a.SameHeading b) (h' : b.SameHeading c) :
    a.SameHeading c := by
  unfold SameHeading at h h' ⊢
  rw [h', h]

/-- A section that may have got more bytes at its end. -/
def Section.BytesExtend (a b : Section) : Prop := a.bytes.toList <+: b.bytes.toList

theorem Section.BytesExtend.refl (s : Section) : s.BytesExtend s := List.prefix_refl _

/-- Bytes that are extended twice. -/
theorem Section.BytesExtend.trans {a b c : Section} (h : a.BytesExtend b) (h' : b.BytesExtend c) :
    a.BytesExtend c :=
  List.IsPrefix.trans h h'

namespace Stores

/-- What is never taken back. -/
structure Grown (a b : Stores) : Prop where
  diagnostics : a.diagnostics.toList <+: b.diagnostics.toList
  printed : a.printed.toList <+: b.printed.toList
  symbols : a.symbols.entries <+: b.symbols.entries
  headings : a.sections.Keeps Section.SameHeading b.sections

/-- What is placed stays where it is. -/
structure PlacedKept (a b : Stores) : Prop where
  bytes : a.sections.Keeps Section.BytesExtend b.sections
  patches : a.patches.toList <+: b.patches.toList

/-- Names stay in the tables, in the same order and with the same meaning. -/
structure NamesKept (a b : Stores) : Prop where
  numbers : a.numbers.Extends Eq b.numbers
  strings : a.strings.Extends Eq b.strings
  macros : a.macros.Extends Eq b.macros
  labels : a.labels.Extends Label.Kept b.labels

theorem Grown.refl (s : Stores) : s.Grown s where
  diagnostics := List.prefix_refl _
  printed := List.prefix_refl _
  symbols := List.prefix_refl _
  headings := .refl Section.SameHeading.refl _

/-- What has grown twice has grown. -/
theorem Grown.trans {a b c : Stores} (h : a.Grown b) (h' : b.Grown c) : a.Grown c where
  diagnostics := h.diagnostics.trans h'.diagnostics
  printed := h.printed.trans h'.printed
  symbols := h.symbols.trans h'.symbols
  headings := h.headings.trans (fun _ _ _ => .trans) h'.headings

theorem PlacedKept.refl (s : Stores) : s.PlacedKept s where
  bytes := .refl Section.BytesExtend.refl _
  patches := List.prefix_refl _

/-- Bytes and patches that are kept twice are kept. -/
theorem PlacedKept.trans {a b c : Stores} (h : a.PlacedKept b) (h' : b.PlacedKept c) :
    a.PlacedKept c where
  bytes := h.bytes.trans (fun _ _ _ => .trans) h'.bytes
  patches := h.patches.trans h'.patches

theorem NamesKept.refl (s : Stores) : s.NamesKept s where
  numbers := .refl Eq.refl _
  strings := .refl Eq.refl _
  macros := .refl Eq.refl _
  labels := .refl Label.Kept.refl _

/-- Names that are kept twice are kept. -/
theorem NamesKept.trans {a b c : Stores} (h : a.NamesKept b) (h' : b.NamesKept c) :
    a.NamesKept c where
  numbers := h.numbers.trans (fun _ _ _ => .trans) h'.numbers
  strings := h.strings.trans (fun _ _ _ => .trans) h'.strings
  macros := h.macros.trans (fun _ _ _ => .trans) h'.macros
  labels := h.labels.trans (fun _ _ _ => .trans) h'.labels

/-! ## Changes -/

variable {word : Option Keyword} {a b : Stores}

/-- Appending keeps what stood in front. -/
theorem toList_prefix_append {α : Type} (xs ys : Array α) : xs.toList <+: (xs ++ ys).toList := by
  rw [Array.toList_append]
  exact List.prefix_append _ _

/-- Every change lets the stores grow. -/
theorem grown_of_change (h : Change word a b) : a.Grown b := by
  have hrefl := Grown.refl a
  cases h with
  | report more => exact { hrefl with diagnostics := toList_prefix_append _ _ }
  | print more => exact { hrefl with printed := by simp }
  | emit bytes _ hs _ =>
    exact
      { hrefl with
        symbols := hs
        headings := Table.keeps_modify Section.SameHeading.refl fun _ _ => rfl }
  | nextMember =>
    exact { hrefl with headings := Table.keeps_modify Section.SameHeading.refl fun _ _ => rfl }
  | endUnion =>
    exact { hrefl with headings := Table.keeps_modify Section.SameHeading.refl fun _ _ => rfl }
  | create _ hnew =>
    have hkey := (Table.get?_eq_none_iff _ _).1 hnew
    exact { hrefl with headings := Table.keeps_insert Section.SameHeading.refl _ hkey }
  | _ => exact { hrefl with }

/-- Filling up keeps the bytes. -/
theorem prefix_resize {bytes : Array UInt8} {size : Nat} (pad : UInt8) (h : bytes.size ≤ size) :
    bytes.toList <+: (State.resize bytes size pad).toList := by
  have hall : bytes.take size = bytes := by simp [Array.take, h]
  rw [State.resize, hall]
  exact toList_prefix_append _ _

/-- Only `NEXTU` cuts bytes off and removes patches: `ENDU` adds what the last member lacks. -/
theorem placedKept_of_change (hw : word ≠ some .nextu) (h : Change word a b) :
    a.PlacedKept b := by
  have hrefl := PlacedKept.refl a
  cases h with
  | @emit place _ new bytes _ _ _ =>
    refine { bytes := Table.keeps_modify Section.BytesExtend.refl fun body _ => ?_, patches := ?_ }
    · exact toList_prefix_append body.bytes bytes
    · exact toList_prefix_append a.patches new.toArray
  | nextMember _ hnext => exact absurd hnext hw
  | @endUnion place body u outer size pad _ _ hbody _ hsize =>
    refine { hrefl with bytes := Table.keeps_modify .refl fun other hother => ?_ }
    obtain rfl : body = other := Option.some.inj (hbody.symm.trans hother)
    exact prefix_resize pad hsize
  | create _ hnew =>
    have hkey := (Table.get?_eq_none_iff _ _).1 hnew
    exact { hrefl with bytes := Table.keeps_insert Section.BytesExtend.refl _ hkey }
  | _ => exact { hrefl with }

/-- Only `PURGE` removes names, and none is ever defined again. -/
theorem namesKept_of_change (hw : word ≠ some .purge) (h : Change word a b) : a.NamesKept b := by
  have hrefl := NamesKept.refl a
  cases h with
  | number entry hnew => exact { hrefl with numbers := Table.extends_insert Eq.refl _ hnew.1 }
  | string entry hnew =>
    exact { hrefl with strings := Table.extends_insert Eq.refl _ hnew.2.1 }
  | macroBody entry hnew =>
    exact { hrefl with macros := Table.extends_insert Eq.refl _ hnew.2.2.2.1 }
  | label entry _ _ _ hnew =>
    exact { hrefl with labels := Table.extends_insert Label.Kept.refl _ hnew }
  | relabel name hf =>
    exact { hrefl with labels := Table.extends_modify Label.Kept.refl _ _ hf }
  | purge _ hpurge => exact absurd hpurge hw
  | purgeLabel _ hpurge => exact absurd hpurge hw
  | _ => exact { hrefl with }

end Stores

namespace Assembler

open Stores

/-- **The stores only grow over a line**, whatever it expands to: nothing is taken back of the
diagnostics, the printed text, the symbols and the sections, nothing of the bytes and patches
unless a `NEXTU` is carried out, and no name unless a `PURGE` is. -/
theorem stores_grow_along_line (levels line : Nat) (text : String) (asm : Assembler) :
    let before := asm.state.stores
    let after := (runner levels line text asm).state.stores
    let moments := history levels line text asm
    before.Grown after ∧
      ((∀ m ∈ moments, m.visit.word? ≠ some .nextu) → before.PlacedKept after) ∧
      ((∀ m ∈ moments, m.visit.word? ≠ some .purge) → before.NamesKept after) := by
  intro before after moments
  have hgrown : Kept (fun _ => True) fun a b => a.state.stores.Grown b.state.stores :=
    kept_of_changes Grown.refl Grown.trans grown_of_change fun _ h => grown_of_change h
  have hplaced : Kept (fun v => v.word? ≠ some .nextu) fun a b =>
      a.state.stores.PlacedKept b.state.stores :=
    kept_of_changes PlacedKept.refl PlacedKept.trans (placedKept_of_change (by simp))
      placedKept_of_change
  have hnames : Kept (fun v => v.word? ≠ some .purge) fun a b =>
      a.state.stores.NamesKept b.state.stores :=
    kept_of_changes NamesKept.refl NamesKept.trans (namesKept_of_change (by simp))
      namesKept_of_change
  exact ⟨(hgrown.compositional.of_line levels line text asm fun _ _ => trivial).whole,
    fun h => (hplaced.compositional.of_line levels line text asm h).whole,
    fun h => (hnames.compositional.of_line levels line text asm h).whole⟩

end Assembler

end Sm83Asm
