import Sm83Asm.Toml.Number
import Sm83Asm.Toml.Quoted
import Sm83Asm.Toml.Value

set_option autoImplicit false

/-!
# Reading TOML

A reader for the values, lines and documents of TOML 1.0.
-/

namespace Sm83Asm.Toml

/-! ## Values -/

/-- Characters of the words that are numbers or truth values. -/
def isWordChar (c : Char) : Bool :=
  c.isAlphanum || c == '_' || c == '+' || c == '-' || c == '.'

/-- Reads a value that is neither text nor a collection. -/
def scalar? : Reader Value := fun cs =>
  let word := cs.takeWhile isWordChar
  let rest := cs.drop word.length
  match word with
  | ['t', 'r', 'u', 'e'] => some (.boolean true, rest)
  | ['f', 'a', 'l', 's', 'e'] => some (.boolean false, rest)
  | _ =>
    match datetime? cs with
    | some (d, rest) => some (.datetime d, rest)
    | none =>
      match integer? word with
      | some n => some (.integer n, rest)
      | none => if isFloat word then some (.float, rest) else none

/-- Reads the equals sign between a key and its value. -/
def equals? (cs : List Char) : Option (List Char) :=
  match skipSpace cs with
  | '=' :: rest => some (skipSpace rest)
  | _ => none

mutual

/-- Reads a value in which at most `levels` collections stand in each other; `fuel` bounds how much
may be read. -/
def value? (levels : Nat) : Nat → Reader Value
  | 0, _ => none
  | fuel + 1, cs =>
    match cs, levels with
    | '[' :: _, 0 | '\x7b' :: _, 0 => none
    | '[' :: rest, levels + 1 =>
      (arrayItems? levels fuel rest).map fun (items, rest) => (.array items, rest)
    | '\x7b' :: rest, levels + 1 =>
      match skipSpace rest with
      | '\x7d' :: rest => some (.table .inline [], rest)
      | rest => (inlineItems? levels fuel [] rest).map fun (entries, rest) =>
          (.table .inline entries, rest)
    | '"' :: _, _ | '\'' :: _, _ => (string? cs).map fun (s, rest) => (.string s, rest)
    | _, _ => scalar? cs

/-- Reads the items of an array up to its closing bracket. -/
def arrayItems? (levels : Nat) : Nat → Reader (List Value)
  | 0, _ => none
  | fuel + 1, cs =>
    match skipBlank false cs with
    | ']' :: rest => some ([], rest)
    | cs =>
      match value? levels fuel cs with
      | none => none
      | some (item, rest) =>
        match skipBlank false rest with
        | ',' :: rest =>
          (arrayItems? levels fuel rest).map fun (items, rest) => (item :: items, rest)
        | ']' :: rest => some ([item], rest)
        | _ => none

/-- Reads the entries of a table between braces up to its closing brace. -/
def inlineItems? (levels : Nat) : Nat → Entries → Reader Entries
  | 0, _, _ => none
  | fuel + 1, entries, cs =>
    match key? cs with
    | none => none
    | some (path, rest) =>
      match equals? rest with
      | none => none
      | some rest =>
        match value? levels fuel rest with
        | none => none
        | some (value, rest) =>
          match entries.addDotted value true path with
          | none => none
          | some entries =>
            match skipSpace rest with
            | ',' :: rest => inlineItems? levels fuel entries rest
            | '\x7d' :: rest => some (entries, rest)
            | _ => none

end

/-! ## Documents -/

/-- What a line of a document does. -/
inductive Step where
  | assign (path : List String) (value : Value)
  | header (path : List String)
  | item (path : List String)

/-- Reads a header behind its first bracket. -/
def header? : Reader Step := fun cs =>
  match cs with
  | '[' :: rest =>
    match key? rest with
    | some (path, ']' :: ']' :: rest) => some (.item path, rest)
    | _ => none
  | _ =>
    match key? cs with
    | some (path, ']' :: rest) => some (.header path, rest)
    | _ => none

/-- Reads a key and its value. -/
def assignment? : Reader Step := fun cs =>
  match key? cs with
  | none => none
  | some (path, rest) =>
    match equals? rest with
    | none => none
    | some rest => (value? maxNesting (rest.length + 1) rest).map fun (value, rest) =>
        (.assign path value, rest)

/-- Reads what the first line does; the end of the line must follow. -/
def step? : Reader Step := fun cs =>
  let read := match cs with
    | '[' :: rest => header? rest
    | _ => assignment? cs
  match read with
  | none => none
  | some (step, rest) => (endLine? rest).map fun rest => (step, rest)

/-- The table that lines belong to, and all entries of the document. -/
structure Document where
  path : List String := []
  entries : Entries := []

/-- Carries out what a line does. -/
def Document.apply (d : Document) : Step → Option Document
  | .assign path value =>
    (d.entries.underHeader (·.addDotted value true path) d.path).map fun entries =>
      { d with entries }
  | .header path =>
    match path.getLast? with
    | none => none
    | some key =>
      (d.entries.underHeader (·.beginTable key) path.dropLast).map fun entries => { path, entries }
  | .item path =>
    match path.getLast? with
    | none => none
    | some key =>
      (d.entries.underHeader (·.beginItem key) path.dropLast).map fun entries => { path, entries }

/-- Reads the lines of a document; `fuel` bounds their number. -/
def lines? : Nat → Document → List Char → Option Entries
  | 0, _, _ => none
  | fuel + 1, d, cs =>
    match skipBlank false cs with
    | [] => some d.entries
    | cs =>
      match step? cs with
      | none => none
      | some (step, rest) =>
        match d.apply step with
        | none => none
        | some d => lines? fuel d rest

/-- The entries of a document. -/
def parse? (text : String) : Option Entries :=
  let cs := match text.toList with
    | c :: rest => if c.toNat == 0xFEFF then rest else c :: rest
    | [] => []
  lines? (cs.length + 1) {} cs

end Sm83Asm.Toml
