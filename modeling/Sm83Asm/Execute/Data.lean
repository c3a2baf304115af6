import Sm83Asm.Line
import Sm83Asm.Link.Compile

set_option autoImplicit false

/-!
# Data and unions

Keywords that put bytes into the open section. Strings are translated by a charmap, which gives
bytes to texts of one or more characters: from left to right, each time by the longest entry that
fits; a character that no entry begins with gives the low byte of its code.

The members of a union share their first byte: each member but the last is taken back when the next
one begins, and at the end the union is filled up to the length of its longest member.
-/

namespace Sm83Asm

/-! ## Character maps -/

/-- The longer of two fitting entries, and of equally long ones the second. -/
def longerEntry (best : Option (List Char × UInt8)) (entry : List Char × UInt8) :
    Option (List Char × UInt8) :=
  match best with
  | none => some entry
  | some (key, byte) => if entry.1.length < key.length then some (key, byte) else some entry

/-- The longest entry at the head of a text. -/
def longestEntry? (charmap : Table UInt8) (cs : List Char) : Option (List Char × UInt8) :=
  ((charmap.entries.map fun (key, byte) => (key.toList, byte)).filter fun (key, _) =>
    !key.isEmpty && key.isPrefixOf cs).foldl longerEntry none

/-- The bytes of a string. -/
def charmapBytes (charmap : Table UInt8) (cs : List Char) : List UInt8 :=
  match cs with
  | [] => []
  | c :: rest =>
    match longestEntry? charmap (c :: rest) with
    | some (key, byte) => byte :: charmapBytes charmap (rest.drop (key.length - 1))
    | none => c.toNat.toUInt8 :: charmapBytes charmap rest
termination_by cs.length

/-! ## Data -/

namespace Scope

/-- The bytes of one item of data that comes to lie at `offset`. -/
def dataItem (sc : Scope) (keyword : Keyword) (offset : Nat) (e : Expr) :
    Act Emission (List UInt8) := do
  let sc := { sc with pinned := some offset }
  match keyword with
  | .db =>
    match ← sc.valueOrPatch [] .byte offset .either e with
    | .text s => return charmapBytes sc.state.charmap s.toList
    | .number n => do
      if !(-128 ≤ n && n ≤ 255) then
        Act.fault (.tooWide n 8) e.token
      return [n.toUInt32.toUInt8]
  | .dw => do
    let n ← sc.numberOrPatch .word offset e
    if !(-32768 ≤ n && n ≤ 65535) then
      Act.fault (.tooWide n 16) e.token
    return (Link.littleEndian n.toUInt32).take 2
  | _ => do
    let n ← sc.numberOrPatch .long offset e
    return Link.littleEndian n.toUInt32

/-- The bytes of items of data, the first of which comes to lie at `offset`. -/
def dataItems (sc : Scope) (keyword : Keyword) (offset : Nat) :
    List Expr → Act Emission (List UInt8)
  | [] => return []
  | e :: es => do
    let bytes ← sc.dataItem keyword offset e
    let rest ← sc.dataItems keyword (offset + bytes.length) es
    return bytes ++ rest

end Scope

namespace State

/-- `DB`, `DW` and `DL`: items of one, two and four bytes. -/
def data (st : State) (keyword : Keyword) (word : Token) (items : List Expr) : State :=
  match st.offset? with
  | none => st.fault (.outsideSection keyword) word
  | some start =>
    let (bytes, st) := st.emitting (st.scope.dataItems keyword start items)
    st.emit bytes.toArray

/-- `DS`: a number of equal bytes. -/
def reserve (st : State) (word : Token) (count : Expr) (fill : Option Expr) : State :=
  match st.offset? with
  | none => st.fault (.outsideSection .ds) word
  | some _ =>
    let (n, st) := st.number count
    let (byte, st) := st.numberD (Int32.ofNat st.options.pad.toNat) fill
    if !(0 ≤ n && n ≤ 0xFFFF) then st.fault (.cannotReserve n) count.token
    else if !(-128 ≤ byte && byte ≤ 255) then st.fault (.fillTooWide byte) word
    else st.emit (Array.replicate n.toInt.toNat byte.toUInt32.toUInt8)

/-! ## Unions -/

/-- `UNION`. -/
def beginUnion (st : State) (word : Token) : State :=
  match st.offset? with
  | none => st.fault (.outsideSection .union) word
  | some offset => { st with unions := ⟨offset, 0⟩ :: st.unions }

/-- The innermost union with its current member counted in, and those around it. -/
def countMember? (st : State) : Option (Union × List Union) :=
  match st.offset?, st.unions with
  | some stop, union :: outer =>
    some ({ union with length := max union.length (stop - union.offset) }, outer)
  | _, _ => none

/-- Whether a patch survives when a section is cut off at an offset. -/
def keepsPatch (place : Option String) (offset : Nat) (patch : Patch) : Bool :=
  some patch.place != place || patch.offset < offset

/-- `NEXTU`: takes back the current member. -/
def nextMember (st : State) (word : Token) : State :=
  match st.countMember? with
  | none => st.fault (.unopened .nextu .union) word
  | some (union, outer) =>
    { st.mapBytes (·.take union.offset) with
      unions := union :: outer
      patches := st.patches.filter (keepsPatch st.current union.offset) }

/-- Bytes cut off or filled up to a size. -/
def resize (bytes : Array UInt8) (size : Nat) (pad : UInt8) : Array UInt8 :=
  bytes.take size ++ Array.replicate (size - bytes.size) pad

/-- `ENDU`: fills the union up to its longest member. -/
def endUnion (st : State) (word : Token) : State :=
  match st.countMember? with
  | none => st.fault (.unopened .endu .union) word
  | some (union, outer) =>
    { st.mapBytes (resize · (union.offset + union.length) st.options.pad) with unions := outer }

end State

end Sm83Asm
