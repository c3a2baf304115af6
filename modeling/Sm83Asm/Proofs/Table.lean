import Sm83Asm.Table

set_option autoImplicit false

/-!
# Laws of tables

What looking a key up gives after each operation, and what the operations do to the list of
entries. A key that is stored for the first time goes to the end, so the positions of the others
stay as they are.
-/

namespace Sm83Asm.Table

variable {α : Type}

/-! ## Looking up -/

/-- A key has no entry exactly if it is not among the keys. -/
theorem get?_eq_none_iff (t : Table α) (key : String) : t.get? key = none ↔ key ∉ t.keys := by
  simp only [get?, keys, List.lookup_eq_none_iff, bne_iff_ne, List.mem_map, not_exists, not_and]
  exact ⟨fun h p hp e => h p hp e.symm, fun h p hp e => h p hp e.symm⟩

theorem contains_iff (t : Table α) (key : String) : t.contains key = true ↔ key ∈ t.keys := by
  rw [contains, Option.isSome_iff_ne_none, ne_eq, get?_eq_none_iff, Decidable.not_not]

/-- What is found is an entry. -/
theorem mem_entries_of_get? {t : Table α} {key : String} {value : α}
    (h : t.get? key = some value) : (key, value) ∈ t.entries := by
  obtain ⟨front, back, hsplit, -⟩ := List.lookup_eq_some_iff.1 h
  rw [hsplit]
  simp

theorem mem_keys_of_get? {t : Table α} {key : String} {value : α} (h : t.get? key = some value) :
    key ∈ t.keys :=
  List.mem_map.2 ⟨_, mem_entries_of_get? h, rfl⟩

/-- With different keys, every entry is found under its key. -/
theorem get?_eq_some_iff {t : Table α} (h : t.keys.Nodup) {key : String} {value : α} :
    t.get? key = some value ↔ (key, value) ∈ t.entries := by
  refine ⟨mem_entries_of_get?, fun hmem => ?_⟩
  obtain ⟨front, back, hsplit⟩ := List.append_of_mem hmem
  have hfront : ∀ p ∈ front, p.1 ≠ key := by
    intro p hp heq
    rw [keys, hsplit, List.map_append, List.nodup_append] at h
    exact h.2.2 _ (List.mem_map_of_mem hp) _ List.mem_cons_self heq
  rw [get?, hsplit, List.lookup_append, List.lookup_eq_none_iff.2]
  · simp
  · exact fun p hp => bne_iff_ne.2 (hfront p hp).symm

/-- Tables with the same entries, in whatever order, give the same values. -/
theorem get?_eq_of_perm {t t' : Table α} (h : t.keys.Nodup) (hp : t'.entries.Perm t.entries)
    (key : String) : t'.get? key = t.get? key := by
  have h' : t'.keys.Nodup := (hp.map Prod.fst).nodup_iff.2 h
  ext value
  rw [get?_eq_some_iff h, get?_eq_some_iff h']
  exact hp.mem_iff

/-! ## Positions -/

/-- Only keys have a position. -/
theorem indexOf?_eq_none_iff (t : Table α) (key : String) :
    t.indexOf? key = none ↔ key ∉ t.keys := by
  simp only [indexOf?, keys, List.findIdx?_eq_none_iff, beq_eq_false_iff_ne, List.mem_map,
    not_exists, not_and, ne_eq]

/-- A key stands at its position. -/
theorem getElem?_keys_of_indexOf? {t : Table α} {key : String} {i : Nat}
    (h : t.indexOf? key = some i) : t.keys[i]? = some key := by
  obtain ⟨hi, hkey, -⟩ := List.findIdx?_eq_some_iff_getElem.1 h
  simp only [keys, List.getElem?_map, List.getElem?_eq_getElem hi, Option.map_some,
    Option.some.injEq]
  exact beq_iff_eq.1 hkey

theorem length_keys (t : Table α) : t.keys.length = t.size := List.length_map _

/-! ## Storing -/

theorem insertEntry_of_not_mem {key : String} (value : α) {entries : List (String × α)}
    (h : key ∉ entries.map Prod.fst) :
    insertEntry key value entries = entries ++ [(key, value)] := by
  induction entries with
  | nil => rfl
  | cons p rest ih =>
    simp only [List.map_cons, List.mem_cons, not_or] at h
    have hne : ¬ (p.1 == key) = true := fun e => h.1 (beq_iff_eq.1 e).symm
    rw [insertEntry, if_neg hne, ih h.2]
    rfl

/-- A new entry goes to the end. -/
theorem entries_insert_of_not_mem {t : Table α} {key : String} (value : α) (h : key ∉ t.keys) :
    (t.insert key value).entries = t.entries ++ [(key, value)] :=
  insertEntry_of_not_mem value h

theorem keys_insert_of_not_mem {t : Table α} {key : String} (value : α) (h : key ∉ t.keys) :
    (t.insert key value).keys = t.keys ++ [key] := by
  rw [keys, entries_insert_of_not_mem value h, List.map_append]
  rfl

/-- The keys behind an insertion are those before it and the inserted one. -/
theorem mem_keys_insert {t : Table α} {key : String} {value : α} {other : String} :
    other ∈ (t.insert key value).keys ↔ other ∈ t.keys ∨ other = key := by
  obtain ⟨entries⟩ := t
  show other ∈ (insertEntry key value entries).map Prod.fst ↔
    other ∈ entries.map Prod.fst ∨ other = key
  induction entries with
  | nil => simp [insertEntry]
  | cons p rest ih =>
    rw [insertEntry]
    split
    · rename_i hkey
      simp only [List.map_cons, List.mem_cons, ← beq_iff_eq.1 hkey]
      exact ⟨Or.inl, fun h => h.elim id Or.inl⟩
    · rw [List.map_cons, List.mem_cons, ih, List.map_cons, List.mem_cons, or_assoc]

/-- Inserting removes nothing. -/
theorem contains_insert_of_contains {t : Table α} {name : String} (h : t.contains name = true)
    (key : String) (value : α) : (t.insert key value).contains name = true := by
  rw [contains_iff] at h ⊢
  exact mem_keys_insert.2 (.inl h)

/-- Keys stay distinct when a new one is added. -/
theorem nodup_keys_insert {t : Table α} {key : String} (value : α) (h : key ∉ t.keys)
    (hn : t.keys.Nodup) : (t.insert key value).keys.Nodup := by
  rw [keys_insert_of_not_mem value h, List.nodup_append]
  refine ⟨hn, by simp, fun a ha b hb hab => h ?_⟩
  rw [List.mem_singleton] at hb
  exact hb ▸ hab ▸ ha

/-- A new key has the inserted value, and every other key what it had. -/
theorem get?_insert_of_not_mem {t : Table α} {key : String} (value : α) (h : key ∉ t.keys)
    (other : String) :
    (t.insert key value).get? other = if other = key then some value else t.get? other := by
  rw [get?, entries_insert_of_not_mem value h, List.lookup_append]
  by_cases he : other = key
  · subst he
    have hnone : t.entries.lookup other = none := (get?_eq_none_iff t other).2 h
    simp [hnone]
  · have hb : (other == key) = false := by simpa using he
    simp [List.lookup_cons, hb, he, get?]

/-! ## Changing -/

/-- Changing an entry leaves the others and the order alone. -/
theorem entries_modify (t : Table α) (key : String) (f : α → α) :
    (t.modify key f).entries = t.entries.map fun p => if p.1 = key then (p.1, f p.2) else p := by
  simp only [modify, beq_iff_eq]

theorem keys_modify (t : Table α) (key : String) (f : α → α) : (t.modify key f).keys = t.keys := by
  simp only [keys, entries_modify, List.map_map]
  refine List.map_congr_left fun p _ => ?_
  by_cases h : p.1 = key <;> simp [h]

/-- A changed key has the changed value, and every other key what it had. -/
theorem get?_modify (t : Table α) (key : String) (f : α → α) (other : String) :
    (t.modify key f).get? other = if other = key then (t.get? other).map f else t.get? other := by
  obtain ⟨entries⟩ := t
  rw [get?, entries_modify]
  show _ = if other = key then (entries.lookup other).map f else entries.lookup other
  induction entries with
  | nil => simp
  | cons p rest ih =>
    obtain ⟨k, v⟩ := p
    by_cases ho : other = k
    · subst ho
      by_cases hk : other = key <;> simp [hk]
    · have hb : (other == k) = false := by simpa using ho
      by_cases hk : k = key
      · subst hk
        simp [List.lookup_cons, hb, ho, ih]
      · simp [List.lookup_cons, hb, hk, ih]

/-- A change that changes no value changes no table. -/
theorem modify_eq_self {t : Table α} {f : α → α} (hf : ∀ a, f a = a) (key : String) :
    t.modify key f = t := by
  obtain ⟨entries⟩ := t
  simp [modify, hf]

/-! ## Removing -/

/-- A key that was erased has no value, and every other key what it had. -/
theorem get?_erase (t : Table α) (key other : String) :
    (t.erase key).get? other = if other = key then none else t.get? other := by
  obtain ⟨entries⟩ := t
  show List.lookup other (entries.filter fun p => p.1 != key) = _
  induction entries with
  | nil => simp [get?]
  | cons p rest ih =>
    obtain ⟨k, v⟩ := p
    simp only [get?] at ih ⊢
    by_cases hk : k = key
    · subst hk
      by_cases ho : other = k
      · subst ho
        simpa using ih
      · have hb : (other == k) = false := by simpa using ho
        simp only [ho, if_false] at ih
        simp [List.lookup_cons, hb, ho, ih]
    · by_cases ho : other = k
      · subst ho
        simp [hk]
      · have hb : (other == k) = false := by simpa using ho
        simp [List.lookup_cons, hb, hk, ih]

theorem mem_keys_erase {t : Table α} {key other : String} :
    other ∈ (t.erase key).keys ↔ other ∈ t.keys ∧ other ≠ key := by
  simp only [keys, erase, List.mem_map, List.mem_filter, bne_iff_ne]
  constructor
  · rintro ⟨p, ⟨hp, hne⟩, rfl⟩
    exact ⟨⟨p, hp, rfl⟩, hne⟩
  · rintro ⟨⟨p, hp, rfl⟩, hne⟩
    exact ⟨p, ⟨hp, hne⟩, rfl⟩

/-- Keys stay distinct when one is erased. -/
theorem nodup_keys_erase {t : Table α} (key : String) (h : t.keys.Nodup) :
    (t.erase key).keys.Nodup :=
  h.sublist (List.filter_sublist.map _)

end Sm83Asm.Table
