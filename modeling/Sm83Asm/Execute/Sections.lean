import Sm83Asm.Line
import Sm83Asm.Link.Compile

set_option autoImplicit false

/-!
# Sections

Opening sections and setting them aside. A section that is declared again must ask for the same
place, and goes on where it was left.
-/

namespace Sm83Asm.State

/-- What a declaration of a section asks for behind its region. -/
structure Attributes where
  bank : Option UInt32 := none
  alignment : Option UInt8 := none

/-- Reads one attribute, `BANK[n]` or `ALIGN[n]`. There is none after a report. -/
def readAttribute (st : State) (region : Region) (attrs : Attributes) (e : Expr) :
    Option Attributes × State :=
  match e with
  | .index t base value =>
    let (n, st) := st.number value
    match Text.upper base.text with
    | "BANK" =>
      match region.banks? with
      | none => (none, st.fault (.notBanked region) t)
      | some (first, last) =>
        if (first : Int) ≤ n.toInt && n.toInt ≤ last then
          (some { attrs with bank := some n.toUInt32 }, st)
        else (none, st.fault (.bankOutsideRegion n region) value.token)
    | "ALIGN" =>
      if 0 ≤ n && n ≤ 16 then (some { attrs with alignment := some n.toUInt32.toUInt8 }, st)
      else (none, st.fault (.invalidAlignment n) value.token)
    | _ => (none, st.fault (.attributeExpected t) t)
  | e => (none, st.fault (.attributeExpected e.token) e.token)

/-- Reads attributes up to the first fault. -/
def readAttributes (st : State) (region : Region) (attrs : Attributes) :
    List Expr → Option Attributes × State
  | [] => (some attrs, st)
  | e :: es =>
    match st.readAttribute region attrs e with
    | (none, st) => (none, st)
    | (some attrs, st) => st.readAttributes region attrs es

/-- The expressions for the region and for the address of a section. -/
def regionParts : Expr → Expr × Option Expr
  | .index _ base address => (base, some address)
  | e => (e, none)

/-- The region that an expression names. -/
def regionOf? : Expr → Option Region
  | .identifier t => Region.ofWord? t.text
  | _ => none

/-- Reads the address of a section, which must lie in its region. There is no outer value after a
report. -/
def fixedAddress (st : State) (region : Region) : Option Expr → Option (Option UInt16) × State
  | none => (some none, st)
  | some e =>
    let (address, st) := st.number e
    if region.hasAddress address.toInt then (some (some address.toUInt32.toUInt16), st)
    else (none, st.fault (.addressOutsideRegion address region) e.token)

/-- Opens a section, new or known. -/
def openSection (st : State) (declared : Section) (token : Token) : State :=
  let enter (st : State) : State := { st.closeLabel with current := some declared.name }
  match st.sections.get? declared.name with
  | some known =>
    if known.sameLayout declared then enter st
    else st.fault (.sectionRedeclared declared.name) token
  | none => enter { st with sections := st.sections.insert declared.name declared }

/-- `SECTION`. -/
def beginSection (st : State) (name kind : Expr) (attrs : List Expr) : State :=
  let (title, st) := st.text name
  let (place, address) := regionParts kind
  match regionOf? place with
  | none => st.fault (.unknownRegion place.text) place.token
  | some region =>
    match st.fixedAddress region address with
    | (none, st) => st
    | (some fixedAddress, st) =>
      match st.readAttributes region {} attrs with
      | (none, st) => st
      | (some attrs, st) =>
        st.openSection
          { name := title, file := st.file, region, fixedAddress, bank := attrs.bank,
            alignment := attrs.alignment }
          name.token

/-- `PUSHS`: sets the open section aside. -/
def pushSection (st : State) : State :=
  let st := st.closeLabel
  { st with
    savedScopes := ⟨st.current, st.unions, st.globalLabel⟩ :: st.savedScopes
    current := none
    unions := []
    globalLabel := none }

/-- `POPS`: goes back to the section that was set aside last. -/
def popSection (st : State) (word : Token) : State :=
  let st := st.closeLabel
  match st.savedScopes with
  | [] => st.fault (.unopened .pops .pushs) word
  | scope :: outer =>
    { st with
      savedScopes := outer
      current := scope.current
      unions := scope.unions
      globalLabel := scope.globalLabel }

end Sm83Asm.State
