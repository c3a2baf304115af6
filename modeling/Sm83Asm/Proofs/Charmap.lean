import Sm83Asm.Eval.Constant
import Sm83Asm.Execute.Data
import Sm83Asm.Proofs.Table

set_option autoImplicit false

/-!
# Translating strings

A string is cut into pieces from left to right: each piece is the longest entry of the charmap that
the rest begins with, or one character where there is none. Two entries of one length that both fit
have the same key, so the cut does not depend on the order of the entries, and a string that stands
for a number is one piece.

Main statement: `charmap_translates`.
-/

namespace Sm83Asm

variable {charmap : Table UInt8} {cs : List Char}

/-! ## Cutting a text -/

/-- An entry of a charmap stands at the head of a text. -/
structure EntryAtHead (charmap : Table UInt8) (cs key : List Char) (byte : UInt8) : Prop where
  entry : charmap.get? (String.ofList key) = some byte
  nonempty : key ≠ []
  leads : key <+: cs

/-- A text is cut into pieces, each of which gives a byte. -/
inductive Translates (charmap : Table UInt8) : List Char → List (List Char) → List UInt8 → Prop
  | nil : Translates charmap [] [] []
  /-- The piece is an entry, and no entry at the head of the text is longer. -/
  | entry {cs key : List Char} {byte : UInt8} {pieces : List (List Char)} {bytes : List UInt8}
      (head : EntryAtHead charmap cs key byte)
      (longest : ∀ other b, EntryAtHead charmap cs other b → other.length ≤ key.length)
      (rest : Translates charmap (cs.drop key.length) pieces bytes) :
      Translates charmap cs (key :: pieces) (byte :: bytes)
  /-- No entry stands at the head of the text, and the piece is one character. -/
  | character {c : Char} {cs : List Char} {pieces : List (List Char)} {bytes : List UInt8}
      (none : ∀ key b, ¬ EntryAtHead charmap (c :: cs) key b)
      (rest : Translates charmap cs pieces bytes) :
      Translates charmap (c :: cs) ([c] :: pieces) (UInt8.ofNat c.toNat :: bytes)

namespace Translates

variable {pieces : List (List Char)} {bytes : List UInt8}

/-- The pieces cover the text. -/
theorem flatten_eq (h : Translates charmap cs pieces bytes) : pieces.flatten = cs := by
  induction h with
  | nil => rfl
  | entry head _ _ ih => rw [List.flatten_cons, ih, List.prefix_iff_eq_append.1 head.leads]
  | character _ _ ih => rw [List.flatten_cons, ih, List.singleton_append]

theorem ne_nil_of_mem (h : Translates charmap cs pieces bytes) : ∀ p ∈ pieces, p ≠ [] := by
  induction h with
  | nil => simp
  | entry head _ _ ih => exact List.forall_mem_cons.2 ⟨head.nonempty, ih⟩
  | character _ _ ih => exact List.forall_mem_cons.2 ⟨by simp, ih⟩

theorem length_eq (h : Translates charmap cs pieces bytes) : bytes.length = pieces.length := by
  induction h with
  | nil => rfl
  | entry _ _ _ ih | character _ _ ih => rw [List.length_cons, List.length_cons, ih]

/-- Charmaps with the same entries cut a text in the same way. -/
theorem unique {charmap' : Table UInt8} (hsame : ∀ key, charmap'.get? key = charmap.get? key)
    {pieces' : List (List Char)} {bytes' : List UInt8} (h : Translates charmap cs pieces bytes)
    (h' : Translates charmap' cs pieces' bytes') : pieces' = pieces ∧ bytes' = bytes := by
  have hheads : ∀ cs key b, EntryAtHead charmap' cs key b ↔ EntryAtHead charmap cs key b := by
    intro cs key b
    exact ⟨fun h => ⟨hsame _ ▸ h.entry, h.nonempty, h.leads⟩,
      fun h => ⟨(hsame _).trans h.entry, h.nonempty, h.leads⟩⟩
  induction h generalizing pieces' bytes' with
  | nil =>
    cases h' with
    | nil => exact ⟨rfl, rfl⟩
    | entry head _ _ => exact absurd (List.prefix_nil.1 head.leads) head.nonempty
  | @entry cs key byte pieces bytes head longest rest ih =>
    cases h' with
    | nil => exact absurd (List.prefix_nil.1 head.leads) head.nonempty
    | @entry _ key' byte' _ _ head' longest' rest' =>
      -- Both keys lead the text and neither is shorter than the other.
      have hle := longest _ _ ((hheads _ _ _).1 head')
      have hge := longest' _ _ ((hheads _ _ _).2 head)
      obtain rfl : key' = key := by
        rcases List.prefix_or_prefix_of_prefix head.leads head'.leads with hp | hp
        · exact (hp.eq_of_length_le hle).symm
        · exact hp.eq_of_length_le hge
      obtain rfl : byte' = byte :=
        Option.some.inj (((hheads _ _ _).1 head').entry.symm.trans head.entry)
      obtain ⟨rfl, rfl⟩ := ih rest'
      exact ⟨rfl, rfl⟩
    | character none' _ => exact absurd ((hheads _ _ _).2 head) (none' _ _)
  | character none rest ih =>
    cases h' with
    | entry head' _ _ => exact absurd ((hheads _ _ _).1 head') (none _ _)
    | character _ rest' =>
      obtain ⟨rfl, rfl⟩ := ih rest'
      exact ⟨rfl, rfl⟩

end Translates

/-! ## The longest entry -/

/-- Of some entries, compared one after the other, the one that wins is nowhere beaten. -/
theorem exists_foldl_longerEntry (entries : List (List Char × UInt8)) (best : List Char × UInt8) :
    ∃ e ∈ best :: entries, entries.foldl longerEntry (some best) = some e ∧
      ∀ o ∈ best :: entries, o.1.length ≤ e.1.length := by
  induction entries generalizing best with
  | nil => exact ⟨best, List.mem_cons_self, rfl, by simp⟩
  | cons entry entries ih =>
    rw [List.foldl_cons, longerEntry]
    split
    · rename_i hlt
      obtain ⟨e, hmem, he, hlongest⟩ := ih best
      obtain ⟨hbest, hrest⟩ := List.forall_mem_cons.1 hlongest
      refine ⟨e, ?_, he, List.forall_mem_cons.2 ⟨hbest, List.forall_mem_cons.2 ⟨?_, hrest⟩⟩⟩
      · exact List.mem_cons.2 ((List.mem_cons.1 hmem).imp id (List.mem_cons_of_mem _))
      · exact Nat.le_trans (Nat.le_of_lt hlt) hbest
    · rename_i hge
      obtain ⟨e, hmem, he, hlongest⟩ := ih entry
      refine ⟨e, List.mem_cons_of_mem _ hmem, he, List.forall_mem_cons.2 ⟨?_, hlongest⟩⟩
      exact Nat.le_trans (Nat.le_of_not_lt hge) (hlongest entry List.mem_cons_self)

/-- The entries that are compared are those at the head of the text. -/
theorem mem_fitting_iff (h : charmap.keys.Nodup) {key : List Char} {byte : UInt8} :
    (key, byte) ∈ ((charmap.entries.map fun (key, byte) => (key.toList, byte)).filter
      fun (key, _) => !key.isEmpty && key.isPrefixOf cs) ↔ EntryAtHead charmap cs key byte := by
  simp only [List.mem_filter, List.mem_map, Prod.exists, Prod.mk.injEq, Bool.and_eq_true,
    Bool.not_eq_true', List.isEmpty_eq_false_iff, List.isPrefixOf_iff_prefix]
  constructor
  · rintro ⟨⟨word, b, hmem, rfl, rfl⟩, hne, hp⟩
    exact ⟨by rw [String.ofList_toList, Table.get?_eq_some_iff h]; exact hmem, hne, hp⟩
  · rintro ⟨hentry, hne, hp⟩
    exact ⟨⟨_, byte, Table.mem_entries_of_get? hentry, String.toList_ofList, rfl⟩, hne, hp⟩

/-- The longest entry at the head of a text is found, if there is any. -/
theorem longestEntry?_cases (h : charmap.keys.Nodup) (cs : List Char) :
    longestEntry? charmap cs = none ∧ (∀ key b, ¬ EntryAtHead charmap cs key b) ∨
      ∃ key byte, longestEntry? charmap cs = some (key, byte) ∧ EntryAtHead charmap cs key byte ∧
        ∀ other b, EntryAtHead charmap cs other b → other.length ≤ key.length := by
  simp only [← mem_fitting_iff h]
  unfold longestEntry?
  generalize (charmap.entries.map fun (key, byte) => (key.toList, byte)).filter _ = fitting
  cases fitting with
  | nil => exact .inl ⟨rfl, by simp⟩
  | cons entry fitting =>
    obtain ⟨⟨key, byte⟩, hmem, he, hlongest⟩ := exists_foldl_longerEntry fitting entry
    exact .inr ⟨key, byte, he, hmem, fun other b hother => hlongest (other, b) hother⟩

/-! ## The bytes of a string -/

/-- The bytes are those of a cut into longest entries. -/
theorem exists_translates (h : charmap.keys.Nodup) (cs : List Char) :
    ∃ pieces, Translates charmap cs pieces (charmapBytes charmap cs) := by
  fun_induction charmapBytes charmap cs with
  | case1 => exact ⟨[], .nil⟩
  | case2 c rest key byte hl ih =>
    obtain ⟨pieces, hrest⟩ := ih
    obtain ⟨hnone, -⟩ | ⟨_, _, hsome, hhead, hlongest⟩ := longestEntry?_cases h (c :: rest)
    · exact absurd (hl.symm.trans hnone) (by simp)
    cases hl.symm.trans hsome
    have hdrop : rest.drop (key.length - 1) = (c :: rest).drop key.length := by
      obtain ⟨k, key, rfl⟩ := List.exists_cons_of_ne_nil hhead.nonempty
      rfl
    rw [hdrop] at hrest ⊢
    exact ⟨key :: pieces, .entry hhead hlongest hrest⟩
  | case3 c rest hl ih =>
    obtain ⟨pieces, hrest⟩ := ih
    obtain ⟨-, hnone⟩ | ⟨_, _, hsome, -⟩ := longestEntry?_cases h (c :: rest)
    · exact ⟨[c] :: pieces, .character hnone hrest⟩
    · exact absurd (hl.symm.trans hsome) (by simp)

theorem charmapBytes_eq (h : charmap.keys.Nodup) {pieces : List (List Char)}
    {bytes : List UInt8} (ht : Translates charmap cs pieces bytes) :
    charmapBytes charmap cs = bytes := by
  obtain ⟨pieces', ht'⟩ := exists_translates h cs
  exact (ht.unique (fun _ => rfl) ht').2

/-- Only the entries matter for the bytes, and not how they are stored. -/
theorem charmapBytes_congr {charmap' : Table UInt8} (h : charmap.keys.Nodup)
    (h' : charmap'.keys.Nodup) (hsame : ∀ key, charmap'.get? key = charmap.get? key)
    (cs : List Char) : charmapBytes charmap' cs = charmapBytes charmap cs := by
  obtain ⟨pieces, ht⟩ := exists_translates h cs
  obtain ⟨pieces', ht'⟩ := exists_translates h' cs
  exact (ht.unique hsame ht').2

/-! ## Strings that stand for numbers -/

/-- A string that stands for a number is one piece, and its byte is the low byte of the number. -/
theorem charmapBytes_of_charValue (st : State) (h : st.charmap.keys.Nodup) {s : String}
    {n : Int32} (hs : s ≠ "") (hn : st.charValue s = .ok n) :
    ∃ byte, charmapBytes st.charmap s.toList = [byte] ∧ (byte.toNat : Int) = n.toInt % 256 := by
  unfold State.charValue at hn
  split at hn
  · rename_i byte hbyte
    cases hn
    have hhead : EntryAtHead st.charmap s.toList s.toList byte :=
      ⟨by rwa [String.ofList_toList], by simpa using hs, List.prefix_refl _⟩
    have hrest : Translates st.charmap (s.toList.drop s.toList.length) [] [] := by
      rw [List.drop_length]
      exact .nil
    have htranslates := hrest.entry hhead fun other b hother => hother.leads.length_le
    refine ⟨byte, charmapBytes_eq h htranslates, ?_⟩
    have hlt := byte.toNat_lt
    rw [Int32.toInt_ofNat_of_lt (by omega)]
    omega
  · rename_i hnone
    split at hn
    · rename_i c hc
      cases hn
      rw [hc]
      refine ⟨_, charmapBytes_eq h (.character (fun key b hhead => ?_) .nil), ?_⟩
      · have hkey : key = [c] := by
          refine hhead.leads.eq_of_length_le ?_
          exact List.length_pos_iff.2 hhead.nonempty
        have hword : String.ofList key = s := by rw [hkey, ← hc, String.ofList_toList]
        rw [← hword, hhead.entry] at hnone
        exact absurd hnone (by simp)
      · -- A character is far below the numbers that turn negative.
        have hlt : c.toNat < 0x110000 := by
          rcases c.valid with hlow | ⟨-, hhigh⟩
          · exact Nat.lt_trans hlow (by decide)
          · exact hhigh
        rw [Int32.toInt_ofNat_of_lt (by omega)]
        simp
    · exact absurd hn (by simp)

/-! ## The whole translation -/

/-- A charmap translates every string greedily: the string is cut into consecutive pieces, none of
them empty, each the longest entry that the rest begins with or else one character, and each piece
gives one byte. The entries may have been stored in any order, and a string that stands for a
number gives the low byte of that number. -/
theorem charmap_translates (charmap : Table UInt8) (h : charmap.keys.Nodup) :
    (∀ cs, ∃ pieces, Translates charmap cs pieces (charmapBytes charmap cs) ∧
      pieces.flatten = cs ∧ (∀ p ∈ pieces, p ≠ []) ∧
        (charmapBytes charmap cs).length = pieces.length) ∧
      (∀ reordered : Table UInt8, reordered.entries.Perm charmap.entries →
        ∀ cs, charmapBytes reordered cs = charmapBytes charmap cs) ∧
      ∀ (st : State) (s : String) (n : Int32), st.charmap = charmap → s ≠ "" →
        st.charValue s = .ok n →
          ∃ byte, charmapBytes charmap s.toList = [byte] ∧ (byte.toNat : Int) = n.toInt % 256 := by
  refine ⟨fun cs => ?_, fun reordered hp cs => ?_, fun st s n hst hs hn => ?_⟩
  · obtain ⟨pieces, ht⟩ := exists_translates h cs
    exact ⟨pieces, ht, ht.flatten_eq, ht.ne_nil_of_mem, ht.length_eq⟩
  · have h' : reordered.keys.Nodup := (hp.map Prod.fst).nodup_iff.2 h
    exact charmapBytes_congr h h' (Table.get?_eq_of_perm h hp) cs
  · subst hst
    exact charmapBytes_of_charValue st h hs hn

/-- Keys of which one begins another, and one of more than a byte. -/
def nestedCharmap : Table UInt8 := ⟨[("A", 1), ("AB", 2), ("é", 200)]⟩

/-- The same entries, stored the other way round. -/
def reversedCharmap : Table UInt8 := ⟨[("é", 200), ("AB", 2), ("A", 1)]⟩

theorem charmap_translates_nestedCharmap :
    nestedCharmap.keys.Nodup ∧ reversedCharmap.entries.Perm nestedCharmap.entries ∧
      (∃ pieces, Translates nestedCharmap "ABAéx".toList pieces [2, 1, 200, 120] ∧
        pieces.flatten = "ABAéx".toList ∧ (∀ p ∈ pieces, p ≠ []) ∧ pieces.length = 4) ∧
      charmapBytes reversedCharmap "ABAéx".toList = [2, 1, 200, 120] ∧
      ∃ byte, charmapBytes nestedCharmap "AB".toList = [byte] ∧ (byte.toNat : Int) = 2 := by
  have hkeys : nestedCharmap.keys.Nodup := by decide
  have hperm : reversedCharmap.entries.Perm nestedCharmap.entries := by decide
  have hbytes : charmapBytes nestedCharmap "ABAéx".toList = [2, 1, 200, 120] := by decide +kernel
  obtain ⟨hcut, horder, hnumber⟩ := charmap_translates nestedCharmap hkeys
  obtain ⟨pieces, ht, hflatten, hne, hlength⟩ := hcut "ABAéx".toList
  rw [hbytes] at ht hlength
  refine ⟨hkeys, hperm, ⟨pieces, ht, hflatten, hne, hlength.symm⟩, ?_, ?_⟩
  · rw [horder reversedCharmap hperm, hbytes]
  · exact hnumber { config := {}, random := .ofSeed 1, charmap := nestedCharmap } "AB" 2 rfl
      (by decide) rfl

end Sm83Asm
