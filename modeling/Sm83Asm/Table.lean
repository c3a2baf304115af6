set_option autoImplicit false

/-!
# Tables keyed by name

A table holds its entries in the order in which their keys first arrived. Storing under a present
key changes the value in place, and removing a key keeps the order of the others, so the position
of an entry moves only when an earlier one is removed.
-/

namespace Sm83Asm

/-- Values under names, in order of arrival. -/
structure Table (α : Type) where
  /-- Keys and values, oldest first. -/
  entries : List (String × α) := []

namespace Table

variable {α : Type}

instance : Inhabited (Table α) := ⟨{}⟩

/-- Number of entries. -/
def size (t : Table α) : Nat := t.entries.length

/-- Keys, oldest first. -/
def keys (t : Table α) : List String := t.entries.map Prod.fst

/-- Values, oldest first. -/
def values (t : Table α) : List α := t.entries.map Prod.snd

/-- The value stored under a key. -/
def get? (t : Table α) (key : String) : Option α := t.entries.lookup key

/-- Whether a key is present. -/
def contains (t : Table α) (key : String) : Bool := (t.get? key).isSome

/-- Position of a key. -/
def indexOf? (t : Table α) (key : String) : Option Nat :=
  t.entries.findIdx? (·.1 == key)

/-- Stores a value in a list of entries: in place under a present key, else at the end. -/
def insertEntry (key : String) (value : α) : List (String × α) → List (String × α)
  | [] => [(key, value)]
  | (k, v) :: rest => if k == key then (k, value) :: rest else (k, v) :: insertEntry key value rest

/-- Stores a value under a key. -/
def insert (t : Table α) (key : String) (value : α) : Table α :=
  ⟨insertEntry key value t.entries⟩

/-- Applies `f` to the value under a key, if there is one. -/
def modify (t : Table α) (key : String) (f : α → α) : Table α :=
  ⟨t.entries.map fun (k, v) => if k == key then (k, f v) else (k, v)⟩

/-- Removes a key and keeps the order of the others. -/
def erase (t : Table α) (key : String) : Table α :=
  ⟨t.entries.filter fun (k, _) => k != key⟩

/-- Stores the pairs of a list from left to right. -/
def ofList (pairs : List (String × α)) : Table α :=
  pairs.foldl (fun t (k, v) => t.insert k v) {}

end Table

end Sm83Asm
