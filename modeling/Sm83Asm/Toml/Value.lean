import Sm83Asm.Toml.Datetime

set_option autoImplicit false

/-!
# TOML documents

The tree of a TOML document. A table remembers how it came about, because that decides what may be
added to it later: a header may complete a table that only longer headers mentioned, and dotted
keys may add to a table that dotted keys began.
-/

namespace Sm83Asm.Toml

/-- How a table came about. -/
inductive Origin where
  /-- On the way to a table that a header names. -/
  | passed
  /-- By a header. -/
  | header
  /-- By a dotted key. -/
  | dotted
  /-- Between braces; it is complete. -/
  | inline
deriving DecidableEq, Repr, Inhabited

/-- Values of a document. -/
inductive Value where
  | string (s : String)
  | integer (n : Int)
  | boolean (b : Bool)
  | float
  | datetime (d : Datetime)
  | array (items : List Value)
  | table (origin : Origin) (entries : List (String × Value))
  /-- Tables collected under one name by double brackets, oldest first. -/
  | tables (items : List (List (String × Value)))
deriving Inhabited

/-- The entries of a table, oldest first. -/
abbrev Entries := List (String × Value)

namespace Entries

/-- Replaces the value of a present key. -/
def replace (key : String) (value : Value) (entries : Entries) : Entries :=
  entries.map fun (k, v) => if k == key then (k, value) else (k, v)

/-- Adds a new key. -/
def add? (key : String) (value : Value) (entries : Entries) : Option Entries :=
  if (entries.lookup key).isSome then none else some (entries ++ [(key, value)])

/-- Changes the entries of the table under a chain of names from headers. Missing tables are made
on the way, and of collected tables the newest is meant. -/
def underHeader (change : Entries → Option Entries) : List String → Entries → Option Entries
  | [], entries => change entries
  | key :: path, entries =>
    match entries.lookup key with
    | none => (underHeader change path []).map fun inner =>
        entries ++ [(key, .table .passed inner)]
    | some (.table .inline _) => none
    | some (.table origin inner) => (underHeader change path inner).map fun inner =>
        entries.replace key (.table origin inner)
    | some (.tables items) =>
      match items.reverse with
      | [] => none
      | newest :: older => (underHeader change path newest).map fun newest =>
          entries.replace key (.tables (newest :: older).reverse)
    | some _ => none

/-- Adds a value under a dotted key. The way may lead through tables that headers did not begin
themselves and through the newest of collected tables, but the table that gets the value must be
`dotted`: begun by a dotted key, or the one that the whole key is written in. -/
def addDotted (value : Value) (dotted : Bool) : List String → Entries → Option Entries
  | [], _ => none
  | [key], entries => if dotted then entries.add? key value else none
  | key :: path, entries =>
    match entries.lookup key with
    | none =>
      (addDotted value true path []).map fun inner => entries ++ [(key, .table .dotted inner)]
    | some (.table .dotted inner) => (addDotted value true path inner).map fun inner =>
        entries.replace key (.table .dotted inner)
    | some (.table .passed inner) => (addDotted value false path inner).map fun inner =>
        entries.replace key (.table .passed inner)
    | some (.tables items) =>
      match items.reverse with
      | [] => none
      | newest :: older => (addDotted value false path newest).map fun newest =>
          entries.replace key (.tables (newest :: older).reverse)
    | some _ => none

/-- Begins the table that a header names. A table that longer headers mentioned moves behind the
other entries. -/
def beginTable (key : String) (entries : Entries) : Option Entries :=
  match entries.lookup key with
  | none => some (entries ++ [(key, .table .header [])])
  | some (.table .passed inner) =>
    some (entries.filter (·.1 != key) ++ [(key, .table .header inner)])
  | some _ => none

/-- Begins another table of those collected under a name. -/
def beginItem (key : String) (entries : Entries) : Option Entries :=
  match entries.lookup key with
  | none => some (entries ++ [(key, .tables [[]])])
  | some (.tables items) => some (entries.replace key (.tables (items ++ [[]])))
  | some _ => none

end Entries

end Sm83Asm.Toml
