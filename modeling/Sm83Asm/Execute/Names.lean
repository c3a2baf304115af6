import Sm83Asm.Line
import Sm83Asm.Link.Compile

set_option autoImplicit false

/-!
# Defining, exporting and removing names

Labels, equates, variables, structure fields and charmap entries. A name gets one meaning; only a
variable may be set again.
-/

namespace Sm83Asm.State

/-! ## Labels -/

/-- Defines a label at the end of the open section. -/
def defineLabel (st : State) (label : LabelDef) : State :=
  let name := label.name.text
  match st.current, st.section? with
  | some place, some body =>
    match st.qualify name with
    | none => st.fault (.localLabelOutsideGlobal name) label.name
    | some full =>
      if st.labels.contains full || st.isDefined full then
        st.fault (.alreadyDefined full) label.name
      else
        let entry : Label :=
          { file := st.file, startLine := st.line, endLine := st.line, place,
            offset := body.bytes.size, size := 0,
            exported := label.isExported || st.pendingExports.contains full }
        let st := st.closeLabel
        { st with
          labels := st.labels.insert full entry
          pendingExports := st.pendingExports.filter (· != full)
          globalLabel := if name.toList.contains '.' then st.globalLabel else some full
          openLabel := some full }
  | _, _ => st.fault .labelOutsideSection label.name

/-- Defines the label of a line, if it has one. -/
def defineLabel? (st : State) : Option LabelDef → State
  | some label => st.defineLabel label
  | none => st

/-! ## Equates and variables -/

/-- Goes on with the name that a keyword defines; there must be one, and it must be new. -/
def withNewName (st : State) (keyword : Keyword) (label : Option LabelDef) (word : Token)
    (k : String → State) : State :=
  match label with
  | none => st.fault (.nameRequired keyword) word
  | some label =>
    let name := label.name.text
    if st.isDefined name then st.fault (.alreadyDefined name) word else k name

/-- Gives a number to a new name. -/
def defineNumber (st : State) (name : String) (value : Int32) : State :=
  { st with numbers := st.numbers.insert name ⟨st.file, st.line, value⟩ }

/-- `EQU`: a name for a number. -/
def equ (st : State) (label : Option LabelDef) (word : Token) (e : Expr) : State :=
  st.withNewName .equ label word fun name =>
    let (value, st) := st.number e
    st.defineNumber name value

/-- `EQUS`: a name for a text. -/
def equs (st : State) (label : Option LabelDef) (word : Token) (e : Expr) : State :=
  st.withNewName .equs label word fun name =>
    let (value, st) := st.text e
    { st with strings := st.strings.insert name ⟨st.file, st.line, value⟩ }

/-- `SET` and `=`: a number that may be set again. -/
def assign (st : State) (label : Option LabelDef) (word : Token) (e : Expr) : State :=
  match label with
  | none => st.fault (.nameRequired .set) word
  | some label =>
    let name := label.name.text
    if st.numbers.contains name || st.strings.contains name || st.macros.contains name then
      st.fault (.reassignedConstant name) word
    else
      let (value, st) := st.number e
      let entry : Variable :=
        match st.vars.get? name with
        | some v => { v with lines := v.lines ++ [st.line], value }
        | none => ⟨st.file, [st.line], value⟩
      { st with vars := st.vars.insert name entry }

/-- Bytes of a structure field of a keyword. -/
def fieldSize : Keyword → Int32
  | .rw => 2
  | .rl => 4
  | _ => 1

/-- `RB`, `RW` and `RL`: a name for the offset of a structure field. -/
def field (st : State) (keyword : Keyword) (label : Option LabelDef) (word : Token)
    (count : Option Expr) : State :=
  st.withNewName keyword label word fun name =>
    let (count, st) := st.numberD 1 count
    let st := st.defineNumber name st.fieldOffset
    { st with fieldOffset := st.fieldOffset + count * fieldSize keyword }

/-! ## Charmaps -/

/-- `CHARMAP`: a byte for a text. -/
def mapText (st : State) (key value : Expr) : State :=
  let (s, st) := st.text key
  let (n, st) := st.number value
  if s.isEmpty then st.fault .emptyCharmapKey key.token
  else if !(0 ≤ n && n ≤ 255) then st.fault (.charmapTooWide n) value.token
  else { st with charmap := st.charmap.insert s n.toUInt32.toUInt8 }

/-! ## Exporting and removing -/

/-- Exports one name: a label at once, an unknown name when it is defined. -/
def exportOne (st : State) : Expr → State
  | .identifier t =>
    match st.qualify t.text with
    | none => st.fault (.localLabelOutsideGlobal t.text) t
    | some full =>
      if st.labels.contains full then
        { st with labels := st.labels.modify full fun l => { l with exported := true } }
      else if st.isDefined full || st.pendingExports.contains full then st
      else { st with pendingExports := st.pendingExports ++ [full] }
  | e => st.fault (.symbolNameExpected e.token) e.token

/-- `EXPORT` and `GLOBAL`. -/
def exportAll (st : State) (names : List Expr) : State := names.foldl exportOne st

/-- Whether a name is in a table other than that of the labels. -/
def isPlainName (st : State) (name : String) : Bool :=
  st.numbers.contains name || st.strings.contains name || st.vars.contains name ||
    st.macros.contains name

/-- Removes one name. A label that the linker may refer to has to stay. -/
def purgeOne (st : State) (e : Expr) : State :=
  let name := e.text
  let found := st.isPlainName name
  let st :=
    { st with
      numbers := st.numbers.erase name
      strings := st.strings.erase name
      vars := st.vars.erase name
      macros := st.macros.erase name }
  match (st.qualify name).filter st.labels.contains with
  | none => if found then st else st.fault (.undefined name) e.token
  | some full =>
    if st.symbols.contains full then st.fault (.referencedLabel full) e.token
    else { st with labels := st.labels.erase full }

/-- `PURGE`. -/
def purge (st : State) (names : List Expr) : State := names.foldl purgeOne st

end Sm83Asm.State
