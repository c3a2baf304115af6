import Sm83Asm.Config
import Sm83Asm.Numeral

set_option autoImplicit false

/-!
# The command line

What the words on the command line ask for, and what a run with them writes. `NAME=value` defines a
number, where the value is any numeric literal, perhaps behind a minus.
-/

namespace Sm83Asm

/-! ## Definitions -/

/-- Why a definition cannot be read. -/
inductive DefineError where
  | noEquals (text : String)
  | noName (text : String)
  | notANumber (value : String)
deriving DecidableEq, Repr

/-- The wording of the error. -/
def DefineError.message : DefineError → String
  | .noEquals text => s!"invalid SYMBOL=value: no `=` found in `{text}`"
  | .noName text => s!"invalid SYMBOL=value: empty symbol in `{text}`"
  | .notANumber value => s!"invalid SYMBOL=value: `{value}` is not a number"

/-- The number of a literal, perhaps behind a minus. -/
def signedValue? (cs : List Char) : Option Int32 :=
  match cs with
  | '-' :: digits => (Numeral.value? {} (String.ofList digits)).map (-·)
  | _ => Numeral.value? {} (String.ofList cs)

/-- Reads a definition. -/
def parseDefine (text : String) : Except DefineError (String × Int32) :=
  match Text.splitOnce? '=' text.toList with
  | none => .error (.noEquals text)
  | some (name, value) =>
    let (name, value) := (Text.trim name, Text.trim value)
    if name.isEmpty then .error (.noName text)
    else
      match signedValue? value with
      | some n => .ok (String.ofList name, n)
      | none => .error (.notANumber (String.ofList value))

/-! ## Arguments -/

/-- What the command line asks for. -/
structure Arguments where
  source : Option String := none
  output : Option String := none
  config : Option String := none
  defines : List (String × Int32) := []
  searchDirs : List String := []
  pad : Option UInt8 := none
  compatibility : Bool := false
  /-- Write the files that the source depends on in place of an object file. -/
  dependencies : Bool := false

namespace Arguments

/-- Reads a byte written as a numeric literal. -/
def byte (text : String) : Except String UInt8 :=
  match parseDefine ("pad=" ++ text) with
  | .error e => .error e.message
  | .ok (_, n) =>
    if 0 ≤ n && n ≤ 255 then .ok n.toUInt32.toUInt8 else .error ("pad byte out of range: " ++ text)

/-- Takes an option with its value. -/
def option? (a : Arguments) (name value : String) : Option (Except String Arguments) :=
  match name with
  | "-o" | "--output" => some (.ok { a with output := some value })
  | "-c" | "--config" => some (.ok { a with config := some value })
  | "-I" | "--include" => some (.ok { a with searchDirs := a.searchDirs ++ [value] })
  | "-p" | "--pad" => some ((byte value).map fun pad => { a with pad := some pad })
  | "-D" | "--define" =>
    some (match parseDefine value with
      | .ok define => .ok { a with defines := a.defines ++ [define] }
      | .error e => .error e.message)
  | "-l" | "--log-level" => some (.ok a)
  | _ => none

/-- Takes an option without a value. -/
def flag? (a : Arguments) : String → Option Arguments
  | "--compat" => some { a with compatibility := true }
  | "-M" => some { a with dependencies := true }
  | _ => none

/-- Takes one word that stands alone: a flag, an option with its value attached, or the source. -/
def word (a : Arguments) (w : String) : Except String Arguments :=
  match a.flag? w with
  | some a => .ok a
  | none =>
    let cs := w.toList
    let attached :=
      match cs with
      | '-' :: '-' :: _ =>
        (Text.splitOnce? '=' cs).bind fun (name, value) =>
          a.option? (String.ofList name) (String.ofList value)
      | '-' :: c :: value => if value.isEmpty then none
        else a.option? (String.ofList ['-', c]) (String.ofList value)
      | _ => none
    match attached with
    | some result => result
    | none =>
      if cs.head? == some '-' then .error ("unexpected argument " ++ w)
      else if a.source.isSome then .error ("unexpected argument " ++ w)
      else .ok { a with source := some w }

/-- Takes all words. -/
def words (a : Arguments) : List String → Except String Arguments
  | [] => .ok a
  | [w] => a.word w
  | w :: value :: rest =>
    match a.option? w value with
    | some (.ok a) => a.words rest
    | some (.error e) => .error e
    | none =>
      match a.word w with
      | .ok a => a.words (value :: rest)
      | .error e => .error e

/-- The configuration with what the command line adds to it. -/
def configure (a : Arguments) (c : Config) : Config :=
  { c with
    defines := a.defines.foldl (fun t (name, value) => t.insert name value) c.defines
    searchDirs := c.searchDirs ++ a.searchDirs
    pad := a.pad.getD c.pad
    compatibility := c.compatibility || a.compatibility }

end Arguments

/-- A path with another extension behind the last part of its name. -/
def withExtension (path extension : String) : String :=
  let cs := path.toList.reverse
  let name := cs.takeWhile (· != '/')
  let dir := (cs.drop name.length).reverse
  let stem := match name.dropWhile (· != '.') with
    | '.' :: stem => if stem.isEmpty then name else stem
    | _ => name
  String.ofList (dir ++ stem.reverse) ++ "." ++ extension

/-- One line for every file other than the source itself that was read. -/
def dependencyLines (source sourceName : String) (resolved : List String) : String :=
  String.join ((resolved.filter (· != sourceName)).map fun file =>
    withExtension source "o" ++ ": " ++ file ++ "\n")

end Sm83Asm
