import Mathlib.Data.List.Forall2
import Sm83Asm.Object
import Sm83Asm.Proofs.Text

set_option autoImplicit false

/-!
# Names in the heap of an object file

Names are stored while the lists of an object file are prepared, and a name that already occurs in
the heap is only referred to. This module shows that no reference goes stale: storing a name adds
to the end of the heap only, so a reference that was right when it was made is right in the heap
that is written in the end (`Stores`), and cutting its bytes out of that heap gives the bytes of the
name (`HeapRef.Names.slice?`).
-/

namespace Sm83Asm

namespace Text

/-- What is found stands at the place where it is found. -/
theorem eq_append_of_find?_eq_some {needle cs : List Char} {n : Nat}
    (h : find? needle cs = some n) : ∃ after, cs = cs.take n ++ (needle ++ after) := by
  induction cs generalizing n with
  | nil =>
    cases needle with
    | nil => exact ⟨[], by simp⟩
    | cons c needle => simp [find?] at h
  | cons c cs ih =>
    by_cases hp : needle.isPrefixOf (c :: cs) = true
    · obtain rfl : 0 = n := by simpa [find?, hp] using h
      obtain ⟨after, ha⟩ := List.isPrefixOf_iff_prefix.mp hp
      exact ⟨after, by simpa using ha.symm⟩
    · obtain ⟨m, hm, rfl⟩ : ∃ m, find? needle cs = some m ∧ m + 1 = n := by
        simpa [find?, hp] using h
      obtain ⟨after, ha⟩ := ih hm
      refine ⟨after, ?_⟩
      rw [List.take_succ_cons, List.cons_append, ← ha]

end Text

namespace ObjectFormat

/-! ## References -/

/-- The reference gives the place and the length of an occurrence of a name. -/
def HeapRef.Names (r : HeapRef) (heap : List Char) (name : String) : Prop :=
  ∃ before after, heap = before ++ (name.toList ++ after) ∧
    r.offset = Text.byteLength before ∧ r.length = Text.byteLength name.toList

/-- Names stay where they are when the heap grows at its end. -/
theorem HeapRef.Names.of_prefix {r : HeapRef} {heap final : List Char} {name : String}
    (h : r.Names heap name) (hp : heap <+: final) : r.Names final name := by
  obtain ⟨before, after, rfl, ho, hl⟩ := h
  obtain ⟨more, rfl⟩ := hp
  exact ⟨before, after ++ more, by simp, ho, hl⟩

/-- A reference ends inside the heap. -/
theorem HeapRef.Names.offset_add_length_le {r : HeapRef} {heap : List Char} {name : String}
    (h : r.Names heap name) : r.offset + r.length ≤ Text.byteLength heap := by
  obtain ⟨before, after, rfl, ho, hl⟩ := h
  rw [ho, hl, Text.byteLength_append, Text.byteLength_append]
  omega

/-- The bytes that a reference cuts out of the bytes of a heap. -/
def slice? (heap : List UInt8) (r : HeapRef) : Option (List UInt8) :=
  if r.offset + r.length ≤ heap.length then some ((heap.drop r.offset).take r.length) else none

theorem HeapRef.Names.slice? {r : HeapRef} {heap : List Char} {name : String}
    (h : r.Names heap name) :
    slice? (Text.utf8 (String.ofList heap)) r = some (Text.utf8 name) := by
  have hle := h.offset_add_length_le
  obtain ⟨before, after, rfl, ho, hl⟩ := h
  rw [ObjectFormat.slice?, if_pos (by rwa [Text.length_utf8_ofList])]
  rw [ho, hl, ← Text.length_utf8_ofList before, ← Text.length_utf8_ofList name.toList,
    Text.utf8_ofList_append, Text.utf8_ofList_append, List.drop_left, List.take_left,
    String.ofList_toList]

/-! ## Storing -/

section Storing

variable {α β : Type}

/-- Storing something only adds to the end of the heap, and what is given back for it is right in
every heap that the result grows into. -/
def Stores (store : List Char → α → β × List Char) (Right : List Char → β → α → Prop) : Prop :=
  ∀ heap a, heap <+: (store heap a).2 ∧
    ∀ final, (store heap a).2 <+: final → Right final (store heap a).1 a

theorem stores_intern : Stores intern fun heap r name => r.Names heap name := by
  intro heap name
  rcases hfind : Text.find? name.toList heap with _ | n
  · have hstore : intern heap name =
        (⟨Text.byteLength heap, Text.byteLength name.toList⟩, heap ++ name.toList) := by
      simp only [intern, hfind]
    rw [hstore]
    have hnames : HeapRef.Names ⟨Text.byteLength heap, Text.byteLength name.toList⟩
        (heap ++ name.toList) name := ⟨heap, [], by simp, rfl, rfl⟩
    exact ⟨List.prefix_append _ _, fun _ hp => hnames.of_prefix hp⟩
  · have hstore : intern heap name =
        (⟨Text.byteLength (heap.take n), Text.byteLength name.toList⟩, heap) := by
      simp only [intern, hfind]
    rw [hstore]
    obtain ⟨after, ha⟩ := Text.eq_append_of_find?_eq_some hfind
    have hnames : HeapRef.Names ⟨Text.byteLength (heap.take n), Text.byteLength name.toList⟩
        heap name := ⟨_, after, ha, rfl, rfl⟩
    exact ⟨List.prefix_refl _, fun _ hp => hnames.of_prefix hp⟩

theorem stores_intern? :
    Stores intern? fun heap => Option.Rel fun r name => r.Names heap name := by
  intro heap name?
  cases name? with
  | none => exact ⟨List.prefix_refl _, fun _ _ => .none⟩
  | some name =>
    obtain ⟨hgrow, hnames⟩ := stores_intern heap name
    exact ⟨hgrow, fun final hp => .some (hnames final hp)⟩

/-- Entries stored one after the other all keep what was given back for them. -/
theorem stores_internAll {store : List Char → α → β × List Char}
    {Right : List Char → β → α → Prop} (h : Stores store Right) :
    Stores (internAll store) fun heap => List.Forall₂ (Right heap) := by
  intro heap as
  induction as generalizing heap with
  | nil => exact ⟨List.prefix_refl _, fun _ _ => .nil⟩
  | cons a as ih =>
    obtain ⟨hgrow, hright⟩ := h heap a
    obtain ⟨hgrows, hrights⟩ := ih (store heap a).2
    exact ⟨hgrow.trans hgrows, fun final hp =>
      .cons (hright final (hgrows.trans hp)) (hrights final hp)⟩

end Storing

theorem stores_internSection :
    Stores internSection fun heap refs s =>
      refs.1.Names heap s.name ∧ refs.2.Names heap s.file := by
  intro heap s
  obtain ⟨hfile, nfile⟩ := stores_intern heap s.file
  obtain ⟨hname, nname⟩ := stores_intern (intern heap s.file).2 s.name
  exact ⟨hfile.trans hname, fun final hp => ⟨nname final hp, nfile final (hname.trans hp)⟩⟩

theorem stores_internSymbol :
    Stores internSymbol fun heap refs s =>
      refs.1.Names heap s.name ∧ refs.2.1.Names heap s.file ∧
        Option.Rel (fun r name => r.Names heap name) refs.2.2 s.place := by
  intro heap s
  obtain ⟨hplace, nplace⟩ := stores_intern? heap s.place
  obtain ⟨hname, nname⟩ := stores_intern (intern? heap s.place).2 s.name
  obtain ⟨hfile, nfile⟩ := stores_intern (intern (intern? heap s.place).2 s.name).2 s.file
  exact ⟨(hplace.trans hname).trans hfile, fun final hp =>
    ⟨nname final (hfile.trans hp), nfile final hp, nplace final ((hname.trans hfile).trans hp)⟩⟩

theorem stores_internPatch :
    Stores internPatch fun heap refs p =>
      refs.1.Names heap p.file ∧ refs.2.Names heap p.place := by
  intro heap p
  obtain ⟨hfile, nfile⟩ := stores_intern heap p.file
  obtain ⟨hplace, nplace⟩ := stores_intern (intern heap p.file).2 p.place
  exact ⟨hfile.trans hplace, fun final hp => ⟨nfile final (hplace.trans hp), nplace final hp⟩⟩

end ObjectFormat

end Sm83Asm
