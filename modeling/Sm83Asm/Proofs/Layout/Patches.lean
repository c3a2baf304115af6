import Sm83Asm.Proofs.Layout.Lines

set_option autoImplicit false

/-!
# Where patches lie along a run

Patches are queued before their bytes are there, and the next member of a union cuts bytes off again
and drops only the patches that begin behind the cut. As long as no section is opened, set aside or
gone back to while a union is open, every queued patch lies inside its section, covers zeros there
and overlaps no other one (`patches_placed_along_run`).

What carries the proof is that no patch reaches over the start of an open union: a cut at that place
then removes a patch as a whole or leaves it as it is.
-/

namespace Sm83Asm

open Layout

/-! ## Sections after their bytes have changed -/

namespace Layout

theorem get?_mapBytes (l : Layout) (place other : String) (f : Array UInt8 → Array UInt8) :
    (l.mapBytes place f).sections.get? other =
      if other = place then (l.sections.get? other).map fun s => { s with bytes := f s.bytes }
      else l.sections.get? other :=
  Table.get?_modify _ _ _ _

theorem IsOpen.get?_mapBytes {l : Layout} {place : String} {body : Section}
    (ho : l.IsOpen place body) (f : Array UInt8 → Array UInt8) :
    (l.mapBytes place f).sections.get? place = some { body with bytes := f body.bytes } := by
  rw [Layout.get?_mapBytes, if_pos rfl, ho.2]
  rfl

theorem get?_mapBytes_of_ne (l : Layout) {place other : String} (hne : other ≠ place)
    (f : Array UInt8 → Array UInt8) :
    (l.mapBytes place f).sections.get? other = l.sections.get? other := by
  rw [Layout.get?_mapBytes, if_neg hne]

/-- Only one section is open. -/
theorem IsOpen.unique {l : Layout} {place place' : String} {body body' : Section}
    (ho : l.IsOpen place body) (ho' : l.IsOpen place' body') : place' = place ∧ body' = body := by
  obtain rfl : place' = place := Option.some.inj (ho'.1.symm.trans ho.1)
  exact ⟨rfl, Option.some.inj (ho'.2.symm.trans ho.2)⟩

end Layout

/-! ## The invariant -/

/-- A patch covers zeros of its section. -/
def Patch.Lies (p : Patch) (sections : Table Section) : Prop :=
  ∃ s, sections.get? p.place = some s ∧ p.Covers p.place 0 s.bytes.toList

/-- A label lies in its section, or in a member of an open union that was taken back. -/
def Label.Lies (label : Label) (l : Layout) : Prop :=
  ∃ s, l.sections.get? label.place = some s ∧
    (label.offset ≤ s.bytes.size ∨
      l.current = some label.place ∧ ∃ u ∈ l.unions, label.offset ≤ u.offset + u.length)

/-- What holds of the patches of a layout between lines. -/
structure PatchesKept (l : Layout) : Prop where
  lies : ∀ p ∈ l.patches, p.Lies l.sections
  apart : l.patches.toList.Pairwise Patch.Apart
  /-- Every open union starts inside the open section. -/
  inside : ∀ u ∈ l.unions, ∃ place body, l.IsOpen place body ∧ u.offset ≤ body.bytes.size
  /-- Inner unions start behind outer ones. -/
  nested : l.unions.Pairwise fun inner outer => outer.offset ≤ inner.offset
  /-- No patch of the open section reaches over the start of an open union. -/
  clear : ∀ u ∈ l.unions, ∀ p ∈ l.patches, l.current = some p.place →
    p.stop ≤ u.offset ∨ u.offset ≤ p.offset
  saved : ∀ scope ∈ l.savedScopes, scope.unions = []
  labels : ∀ name label, l.labels.get? name = some label → label.Lies l

namespace PatchesKept

variable {l : Layout} {place : String} {body : Section}

theorem stop_le (h : PatchesKept l) (ho : l.IsOpen place body) {p : Patch} (hp : p ∈ l.patches)
    (hplace : p.place = place) : p.stop ≤ body.bytes.size := by
  obtain ⟨s, hs, hcovers⟩ := h.lies p hp
  obtain rfl : s = body := Option.some.inj (hs.symm.trans (hplace ▸ ho.2))
  simpa using hcovers.stop_le

theorem offset_le (h : PatchesKept l) (ho : l.IsOpen place body) {u : Union} (hu : u ∈ l.unions) :
    u.offset ≤ body.bytes.size := by
  obtain ⟨place', body', ho', hle⟩ := h.inside u hu
  obtain ⟨-, rfl⟩ := ho.unique ho'
  exact hle

end PatchesKept

/-! ## Bytes that are cut off -/

/-- A patch in front of a cut lies in what is left. -/
theorem Patch.Covers.take {p : Patch} {place : String} {bytes : List UInt8} {n : Nat}
    (h : p.Covers place 0 bytes) (hn : p.stop ≤ n) : p.Covers place 0 (bytes.take n) where
  place_eq := h.place_eq
  start_le := h.start_le
  zero i hi := by
    have hlt : p.offset - 0 + i < n := by
      unfold Patch.stop at hn
      omega
    rw [List.getElem?_take_of_lt hlt]
    exact h.zero i hi

theorem Patch.Lies.cut {p : Patch} {l : Layout} {place : String} {body : Section}
    (h : p.Lies l.sections) (ho : l.IsOpen place body) {n : Nat}
    (hn : p.place = place → p.stop ≤ n) : p.Lies (l.mapBytes place (·.take n)).sections := by
  obtain ⟨s, hs, hcovers⟩ := h
  by_cases hp : p.place = place
  · subst hp
    obtain rfl : s = body := Option.some.inj (hs.symm.trans ho.2)
    refine ⟨_, ho.get?_mapBytes (·.take n), ?_⟩
    rw [← Array.shrink_eq_take, Array.toList_shrink]
    exact hcovers.take (hn rfl)
  · exact ⟨s, (l.get?_mapBytes_of_ne hp _).trans hs, hcovers⟩

/-! ## Bytes at the end -/

section Grow

variable {l : Layout} {place : String} {body : Section} {f : Array UInt8 → Array UInt8}
  {more : Array UInt8}

theorem Patch.Lies.grow {p : Patch} (h : p.Lies l.sections) (ho : l.IsOpen place body)
    (hf : f body.bytes = body.bytes ++ more) : p.Lies (l.mapBytes place f).sections := by
  obtain ⟨s, hs, hcovers⟩ := h
  by_cases hp : p.place = place
  · subst hp
    obtain rfl : s = body := Option.some.inj (hs.symm.trans ho.2)
    refine ⟨_, ho.get?_mapBytes f, ?_⟩
    rw [hf, Array.toList_append]
    exact hcovers.append_right _
  · exact ⟨s, (l.get?_mapBytes_of_ne hp f).trans hs, hcovers⟩

/-- Sections do not get shorter. -/
theorem exists_get?_grow (ho : l.IsOpen place body) (hf : f body.bytes = body.bytes ++ more)
    {other : String} {s : Section} (hs : l.sections.get? other = some s) :
    ∃ s', (l.mapBytes place f).sections.get? other = some s' ∧ s.bytes.size ≤ s'.bytes.size := by
  by_cases hp : other = place
  · subst hp
    obtain rfl : s = body := Option.some.inj (hs.symm.trans ho.2)
    refine ⟨_, ho.get?_mapBytes f, ?_⟩
    rw [hf, Array.size_append]
    omega
  · exact ⟨s, (l.get?_mapBytes_of_ne hp f).trans hs, Nat.le_refl _⟩

end Grow

namespace PatchesKept

variable {l : Layout} {place : String} {body : Section}

/-- Bytes with their patches at the end of the open section. -/
theorem emit {st : State} {bytes : List UInt8} {after : Emission} (h : PatchesKept st.layout)
    (ho : st.layout.IsOpen place body)
    (he : st.Emitted place body.bytes.size bytes st.emission after) :
    PatchesKept
      ({ st.layout with symbols := after.linkage.symbols, patches := after.patches }.mapBytes
        place (· ++ bytes.toArray)) := by
  obtain ⟨new, hnew, hplaced, -⟩ := he.patches
  have hmem : ∀ p ∈ after.patches, p ∈ st.layout.patches ∨ p ∈ new := fun p hp =>
    (List.mem_append.1 (hnew ▸ hp.val)).imp_left fun hp => ⟨hp⟩
  -- New patches begin where the section ended, so they keep clear of all that was there.
  have hbehind : ∀ p ∈ new, p.place = place ∧ body.bytes.size ≤ p.offset := fun p hp =>
    ⟨(hplaced.covers p hp).place_eq, (hplaced.covers p hp).start_le⟩
  have hbody := ho.get?_mapBytes (· ++ bytes.toArray)
  refine ⟨fun p hp => ?_, ?_, fun u hu => ?_, h.nested, fun u hu p hp hc => ?_, h.saved,
    fun name label hlabel => ?_⟩
  · rcases hmem p hp with hp | hp
    · exact (h.lies p hp).grow ho (f := (· ++ bytes.toArray)) rfl
    · have hcovers := hplaced.covers p hp
      obtain ⟨rfl, -⟩ := hbehind p hp
      refine ⟨_, hbody, ?_⟩
      rw [Array.toList_append, List.toList_toArray]
      refine Patch.Covers.append_left ?_
      rwa [Nat.zero_add, Array.length_toList]
  · show after.patches.toList.Pairwise Patch.Apart
    rw [hnew]
    refine List.pairwise_append.2 ⟨h.apart, hplaced.apart, fun p hp q hq hpq => Or.inl ?_⟩
    exact Nat.le_trans (h.stop_le ho ⟨hp⟩ (hpq.trans (hbehind q hq).1)) (hbehind q hq).2
  · refine ⟨place, _, ⟨ho.1, hbody⟩, ?_⟩
    have hle := h.offset_le ho hu
    simp only [Array.size_append]
    omega
  · rcases hmem p hp with hp | hp
    · exact h.clear u hu p hp hc
    · exact Or.inr (Nat.le_trans (h.offset_le ho hu) (hbehind p hp).2)
  · obtain ⟨s, hs, hle⟩ := h.labels name label hlabel
    obtain ⟨s', hs', hsize⟩ := exists_get?_grow ho (f := (· ++ bytes.toArray)) rfl hs
    exact ⟨s', hs', hle.imp_left fun hle => Nat.le_trans hle hsize⟩

/-! ## Unions -/

/-- A union that starts at the end of the open section. -/
theorem beginUnion (h : PatchesKept l) (ho : l.IsOpen place body) :
    PatchesKept { l with unions := ⟨body.bytes.size, 0⟩ :: l.unions } := by
  refine ⟨h.lies, h.apart, fun u hu => ?_, ?_, fun u hu p hp hc => ?_, h.saved,
    fun name label hlabel => ?_⟩
  · rcases List.mem_cons.1 hu with rfl | hu
    · exact ⟨place, body, ho, Nat.le_refl _⟩
    · exact h.inside u hu
  · exact List.pairwise_cons.2 ⟨fun u hu => h.offset_le ho hu, h.nested⟩
  · rcases List.mem_cons.1 hu with rfl | hu
    · exact Or.inl (h.stop_le ho hp (Option.some.inj (hc.symm.trans ho.1)))
    · exact h.clear u hu p hp hc
  · obtain ⟨s, hs, hle⟩ := h.labels name label hlabel
    refine ⟨s, hs, hle.imp_right fun ⟨hc, u, hu, hle⟩ => ?_⟩
    exact ⟨hc, u, List.mem_cons_of_mem _ hu, hle⟩

/-- The current member is counted and taken back. -/
theorem nextMember (h : PatchesKept l) (ho : l.IsOpen place body) {u : Union}
    {outer : List Union} (hu : l.unions = u :: outer) :
    PatchesKept
      ({ l with
          unions := { u with length := max u.length (body.bytes.size - u.offset) } :: outer
          patches := l.patches.filter (State.keepsPatch (some place) u.offset) }.mapBytes
        place (·.take u.offset)) := by
  have hmem : u ∈ l.unions := hu ▸ List.mem_cons_self
  have hsub : ∀ v ∈ outer, v ∈ l.unions := fun v hv => hu ▸ List.mem_cons_of_mem _ hv
  have hnested := h.nested
  rw [hu, List.pairwise_cons] at hnested
  have hstart : u.offset ≤ body.bytes.size := h.offset_le ho hmem
  -- A patch that begins in front of the cut also ends there, by `clear`.
  have hkept : ∀ p ∈ l.patches.filter (State.keepsPatch (some place) u.offset),
      p ∈ l.patches ∧ (p.place = place → p.stop ≤ u.offset) := by
    intro p hp
    obtain ⟨hp, hkeeps⟩ := Array.mem_filter.1 hp
    refine ⟨hp, fun hplace => ?_⟩
    have hlt : p.offset < u.offset := by
      simpa [State.keepsPatch, hplace] using hkeeps
    rcases h.clear u hmem p hp (hplace ▸ ho.1) with hle | hle
    · exact hle
    · omega
  have hbody := ho.get?_mapBytes (·.take u.offset)
  have hsize : (body.bytes.take u.offset).size = u.offset := by
    simp only [Array.take_eq_extract, Array.size_extract]
    omega
  refine ⟨fun p hp => (h.lies p (hkept p hp).1).cut ho (hkept p hp).2, ?_, fun v hv => ?_, ?_,
    fun v hv p hp hc => ?_, h.saved, fun name label hlabel => ?_⟩
  · show (l.patches.filter _).toList.Pairwise Patch.Apart
    rw [Array.toList_filter]
    exact h.apart.sublist List.filter_sublist
  · refine ⟨place, _, ⟨ho.1, hbody⟩, ?_⟩
    rw [hsize]
    rcases List.mem_cons.1 hv with rfl | hv
    · exact Nat.le_refl _
    · exact hnested.1 v hv
  · exact List.pairwise_cons.2 hnested
  · rcases List.mem_cons.1 hv with rfl | hv
    · exact h.clear u hmem p (hkept p hp).1 hc
    · exact h.clear v (hsub v hv) p (hkept p hp).1 hc
  · obtain ⟨s, hs, hle⟩ := h.labels name label hlabel
    by_cases hplace : label.place = place
    · subst hplace
      obtain rfl : s = body := Option.some.inj (hs.symm.trans ho.2)
      refine ⟨_, hbody, Or.inr ⟨ho.1, ?_⟩⟩
      rcases hle with hle | ⟨-, v, hv, hle⟩
      · exact ⟨_, List.mem_cons_self, by dsimp only; omega⟩
      · rw [hu] at hv
        rcases List.mem_cons.1 hv with rfl | hv
        · exact ⟨_, List.mem_cons_self, by dsimp only; omega⟩
        · exact ⟨v, List.mem_cons_of_mem _ hv, hle⟩
    · refine ⟨s, (l.get?_mapBytes_of_ne hplace (·.take u.offset)).trans hs, ?_⟩
      rcases hle with hle | ⟨hc, -⟩
      · exact Or.inl hle
      · exact absurd (Option.some.inj (hc.symm.trans ho.1)) hplace

/-- The union is filled up to its longest member. -/
theorem endUnion (h : PatchesKept l) (ho : l.IsOpen place body) {u : Union}
    {outer : List Union} (hu : l.unions = u :: outer) (pad : UInt8) :
    PatchesKept
      ({ l with unions := outer }.mapBytes place fun bytes =>
        State.resize bytes (u.offset + max u.length (body.bytes.size - u.offset)) pad) := by
  have hsub : ∀ v ∈ outer, v ∈ l.unions := fun v hv => hu ▸ List.mem_cons_of_mem _ hv
  have hnested := h.nested
  rw [hu, List.pairwise_cons] at hnested
  have hstart : u.offset ≤ body.bytes.size := h.offset_le ho (hu ▸ List.mem_cons_self)
  let size := u.offset + max u.length (body.bytes.size - u.offset)
  -- The last member ends inside the union, so resizing cuts nothing off.
  have hgrow : State.resize body.bytes size pad =
      body.bytes ++ Array.replicate (size - body.bytes.size) pad := by
    rw [State.resize, Array.take_eq_extract, Array.extract_eq_self_of_le (by omega)]
  have hbody := ho.get?_mapBytes (State.resize · size pad)
  refine ⟨fun p hp => (h.lies p hp).grow ho (f := (State.resize · size pad)) hgrow, h.apart,
    fun v hv => ?_, hnested.2, fun v hv => h.clear v (hsub v hv), h.saved,
    fun name label hlabel => ?_⟩
  · refine ⟨place, _, ⟨ho.1, hbody⟩, ?_⟩
    have hle := h.offset_le ho (hsub v hv)
    simp only [hgrow, Array.size_append]
    omega
  · obtain ⟨s, hs, hle⟩ := h.labels name label hlabel
    obtain ⟨s', hs', hsize⟩ := exists_get?_grow ho (f := (State.resize · size pad)) hgrow hs
    refine ⟨s', hs', ?_⟩
    rcases hle with hle | ⟨hc, v, hv, hle⟩
    · exact Or.inl (Nat.le_trans hle hsize)
    · rw [hu] at hv
      rcases List.mem_cons.1 hv with rfl | hv
      · -- A label of a member that was taken back lies in what the union is filled up to.
        obtain rfl : label.place = place := Option.some.inj (hc.symm.trans ho.1)
        obtain rfl := Option.some.inj (hs'.symm.trans hbody)
        refine Or.inl ?_
        simp only [hgrow, Array.size_append, Array.size_replicate]
        omega
      · exact Or.inr ⟨hc, v, hv, hle⟩

/-! ## Edits and switches -/

theorem edit {a b : Layout} (ha : PatchesKept a) (h : Edit a b) : PatchesKept b := by
  cases h with
  | @define _ place body name entry ho hn hp hs =>
    refine ⟨ha.lies, ha.apart, ha.inside, ha.nested, ha.clear, ha.saved,
      fun other label hlabel => ?_⟩
    rw [Table.get?_insert_of_not_mem entry hn] at hlabel
    split at hlabel
    · obtain rfl := Option.some.inj hlabel
      exact ⟨body, hp ▸ ho.2, Or.inl (Nat.le_of_eq hs)⟩
    · exact ha.labels other label hlabel
  | @relabel _ name f hf =>
    refine ⟨ha.lies, ha.apart, ha.inside, ha.nested, ha.clear, ha.saved,
      fun other label hlabel => ?_⟩
    rw [Table.get?_modify] at hlabel
    split at hlabel
    · obtain ⟨old, hold, rfl⟩ := Option.map_eq_some_iff.1 hlabel
      have hlies := ha.labels other old hold
      unfold Label.Lies at hlies ⊢
      rwa [(hf old).1, (hf old).2]
    · exact ha.labels other label hlabel
  | @remove _ name h =>
    refine ⟨ha.lies, ha.apart, ha.inside, ha.nested, ha.clear, ha.saved,
      fun other label hlabel => ?_⟩
    rw [Table.get?_erase] at hlabel
    split at hlabel
    · exact absurd hlabel (by simp)
    · exact ha.labels other label hlabel
  | emit ho he => exact ha.emit ho he
  | beginUnion ho => exact ha.beginUnion ho
  | nextMember ho hu => exact ha.nextMember ho hu
  | endUnion pad ho hu => exact ha.endUnion ho hu pad

/-- Labels lie in their sections when no union is open. -/
theorem label_le (h : PatchesKept l) (hu : l.unions = []) {name : String} {label : Label}
    (hlabel : l.labels.get? name = some label) :
    ∃ s, l.sections.get? label.place = some s ∧ label.offset ≤ s.bytes.size := by
  obtain ⟨s, hs, hle | ⟨-, u, hmem, -⟩⟩ := h.labels name label hlabel
  · exact ⟨s, hs, hle⟩
  · rw [hu] at hmem
    exact absurd hmem (by simp)

/-- A layout without open unions. -/
theorem of_unions_eq_nil {a b : Layout} (ha : PatchesKept a) (hu : a.unions = [])
    (hb : b.unions = [])
    (hs : ∀ name s, a.sections.get? name = some s → b.sections.get? name = some s)
    (hp : b.patches = a.patches) (hl : b.labels = a.labels)
    (hsaved : ∀ scope ∈ b.savedScopes, scope.unions = []) : PatchesKept b := by
  refine ⟨fun p hmem => ?_, hp ▸ ha.apart, ?_, ?_, ?_, hsaved, fun name label hlabel => ?_⟩
  · obtain ⟨s, hget, hcovers⟩ := ha.lies p (hp ▸ hmem)
    exact ⟨s, hs _ _ hget, hcovers⟩
  · simp [hb]
  · simp [hb]
  · simp [hb]
  · obtain ⟨s, hget, hle⟩ := ha.label_le hu (hl ▸ hlabel)
    exact ⟨s, hs _ _ hget, Or.inl hle⟩

theorem switch {a b : Layout} (ha : PatchesKept a) (hu : a.unions = []) (h : Switch a b) :
    PatchesKept b := by
  cases h with
  | enter h => exact ha.of_unions_eq_nil hu hu (fun _ _ h => h) rfl rfl ha.saved
  | @create declared h hb =>
    refine ha.of_unions_eq_nil hu hu (fun name s hs => ?_) rfl rfl ha.saved
    rw [Table.get?_insert_of_not_mem _ ((Table.get?_eq_none_iff _ _).1 h), if_neg ?_]
    · exact hs
    · rintro rfl
      exact absurd (hs.symm.trans h) (by simp)
  | push globalLabel =>
    refine ha.of_unions_eq_nil hu rfl (fun _ _ h => h) rfl rfl fun scope hscope => ?_
    rcases List.mem_cons.1 hscope with rfl | hscope
    · exact hu
    · exact ha.saved scope hscope
  | @pop scope outer h =>
    refine ha.of_unions_eq_nil hu (ha.saved scope (h ▸ List.mem_cons_self)) (fun _ _ h => h) rfl rfl
      fun other hother => ha.saved other (h ▸ List.mem_cons_of_mem _ hother)

end PatchesKept

namespace Assembler

/-! ## Whole runs -/

/-- What holds of the patches and labels of a state between lines. -/
structure PatchesSound (st : State) : Prop where
  /-- Every patch lies in a section that exists, and its bytes are zero. -/
  zero : ∀ p ∈ st.patches, ∃ s, st.sections.get? p.place = some s ∧
    p.offset + p.kind.width ≤ s.bytes.size ∧
    ∀ i, p.offset ≤ i → i < p.offset + p.kind.width → s.bytes[i]? = some 0
  /-- Two patches of one section do not overlap. -/
  disjoint : st.patches.toList.Pairwise fun p q => p.place = q.place →
    p.offset + p.kind.width ≤ q.offset ∨ q.offset + q.kind.width ≤ p.offset
  /-- Every label lies in its section, unless a union is open. -/
  label_le : st.unions = [] → ∀ name label, st.labels.get? name = some label →
    ∃ s, st.sections.get? label.place = some s ∧ label.offset ≤ s.bytes.size

theorem patchesSound_of_kept {st : State} (h : PatchesKept st.layout) : PatchesSound st where
  zero p hp := by
    obtain ⟨s, hs, hcovers⟩ := h.lies p hp
    refine ⟨s, hs, by simpa [Patch.stop] using hcovers.stop_le, fun i hle hlt => ?_⟩
    have hzero := hcovers.zero (i - p.offset) (by omega)
    rw [Nat.sub_zero, Nat.add_sub_cancel' hle, Array.getElem?_toList] at hzero
    exact hzero
  disjoint := h.apart
  label_le hu name label hlabel := h.label_le hu hlabel

theorem patchesKept_new (config : Config) (files : FileStore) :
    PatchesKept (new config files).state.layout where
  lies p hp := absurd hp (by simp [new, State.layout, State.ofConfig])
  apart := .nil
  inside u hu := absurd hu (by simp [new, State.layout, State.ofConfig])
  nested := .nil
  clear u hu := absurd hu (by simp [new, State.layout, State.ofConfig])
  saved scope hs := absurd hs (by simp [new, State.layout, State.ofConfig])
  labels name label h := absurd (Table.mem_entries_of_get? h)
    (by simp [new, State.layout, State.ofConfig])

/-- In every state between the lines of a run in which no union is open when a section is opened,
set aside or gone back to, patches lie inside their sections, on zeros and apart, and labels inside
theirs. -/
theorem patches_placed_along_run (config : Config) (files : FileStore) (sources : List Source)
    (h : ∀ m ∈ (new config files).historyOf sources, m.visit.switchesSection = true →
      m.visit.before.state.unions = []) :
    ∀ asm ∈ (new config files).reached sources, PatchesSound asm.state := by
  have hkept : Kept (fun v => v.switchesSection = true → v.before.state.unions = []) fun a b =>
      PatchesKept a.state.layout → PatchesKept b.state.layout :=
    kept_of_layout (Q := fun a b => PatchesKept a → PatchesKept b) (fun _ h => h)
      (fun h h' ha => h' (h ha)) (fun h ha => ha.edit h)
      fun hv hk hunions h ha => ha.switch (hunions.trans (hv hk)) h
  intro asm hasm
  exact patchesSound_of_kept
    (hkept.holds_reached sources (patchesKept_new config files) h asm hasm)

/-- A union whose first member holds a patch that is taken back. -/
def unionSource : Source :=
  .text "a" " SECTION \"a\",ROM0\n UNION\n dw x\n NEXTU\ny: db x\n ENDU\n"

theorem patches_placed_along_unionSource :
    (∀ m ∈ (new {} (.memory {})).historyOf [unionSource], m.visit.switchesSection = true →
        m.visit.before.state.unions = []) ∧
      ((new {} (.memory {})).runAll [unionSource]).state.patches.size = 1 ∧
      ∀ asm ∈ (new {} (.memory {})).reached [unionSource], PatchesSound asm.state := by
  have h : ∀ m ∈ (new {} (.memory {})).historyOf [unionSource], m.visit.switchesSection = true →
      m.visit.before.state.unions = [] := by
    decide +kernel
  exact ⟨h, by decide +kernel, patches_placed_along_run {} (.memory {}) [unionSource] h⟩

end Assembler

end Sm83Asm
