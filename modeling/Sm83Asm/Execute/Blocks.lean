import Sm83Asm.Line
import Sm83Asm.Link.Compile

set_option autoImplicit false

/-!
# Blocks

Conditional blocks, macro definitions and repeats. A conditional block inside a dead branch is
dead as a whole, and so is every branch behind the first live one.
-/

namespace Sm83Asm.State

/-- The number of the only argument of a keyword; zero after a report when there is not exactly
one. -/
def soleNumber (st : State) (keyword : Keyword) (word : Token) (args : List Expr) :
    Int32 × State :=
  match args with
  | [e] => st.number e
  | _ => (0, st.fault (.keywordArity keyword) word)

/-! ## Conditional blocks -/

/-- `IF`. -/
def beginIf (st : State) (word : Token) (args : List Expr) : State :=
  if st.conditionsTrue then
    let (n, st) := st.soleNumber .ifTrue word args
    let condition := n != 0
    { st with conditionals := ⟨condition, condition⟩ :: st.conditionals }
  else { st with conditionals := ⟨false, true⟩ :: st.conditionals }

/-- `ELIF`. -/
def nextIf (st : State) (word : Token) (args : List Expr) : State :=
  match st.conditionals with
  | [] => st.fault (.unopened .elseIf .ifTrue) word
  | top :: outer =>
    if top.taken || !st.outerConditionsTrue then
      { st with conditionals := { top with condition := false } :: outer }
    else
      let (n, st) := st.soleNumber .elseIf word args
      let condition := n != 0
      { st with conditionals := ⟨condition, top.taken || condition⟩ :: outer }

/-- `ELSE`. -/
def lastIf (st : State) (word : Token) : State :=
  match st.conditionals with
  | [] => st.fault (.unopened .elseAll .ifTrue) word
  | top :: outer => { st with conditionals := ⟨!top.taken, true⟩ :: outer }

/-- `ENDC`. -/
def endIf (st : State) (word : Token) : State :=
  match st.conditionals with
  | [] => st.fault (.unopened .endIf .ifTrue) word
  | _ :: outer => { st with conditionals := outer }

/-! ## Macro definitions -/

/-- The name of a macro: the label in front, or the argument. Inside another definition a name is
not needed. -/
def macroName? (st : State) (label : Option LabelDef) (args : List Expr) : Option String :=
  match label, args with
  | some label, _ => some label.name.text
  | none, .identifier t :: _ => some t.text
  | none, _ => if st.macroDefs.isEmpty then none else some ""

/-- `MACRO`. -/
def beginMacro (st : State) (label : Option LabelDef) (word : Token) (args : List Expr) : State :=
  match st.macroName? label args with
  | none => st.fault .macroNameRequired word
  | some name => { st with macroDefs := ⟨name, st.file, st.line⟩ :: st.macroDefs }

/-- `ENDM`. Only the outermost definition defines a macro. -/
def endMacro (st : State) (word : Token) : State :=
  match st.macroDefs with
  | [] => st.fault (.unopened .macroEnd .macroStart) word
  | _ :: outer :: rest => { st with macroDefs := outer :: rest }
  | [definition] =>
    let st := { st with macroDefs := [] }
    if st.isDefined definition.name then st.fault (.alreadyDefined definition.name) word
    else
      { st with
        macros := st.macros.insert definition.name
          ⟨definition.file, definition.startLine, st.line⟩ }

/-- `SHIFT`: drops arguments of the macro call. -/
def shift (st : State) (word : Token) (count : Option Expr) : State :=
  let (n, st) := st.numberD 1 count
  if n < 0 then st.fault (.negativeShift n) word
  else
    match st.frames with
    | [] => st.fault .shiftOutsideMacro word
    | frame :: outer =>
      { st with frames := { frame with shifted := frame.shifted + n.toInt.toNat } :: outer }

/-! ## Repeats -/

/-- `REPT`. A repeat inside the body of another one is only counted. -/
def beginRepeat (st : State) (word : Token) (args : List Expr) : State :=
  if st.repeats.isEmpty then
    let (n, st) := st.soleNumber .rept word args
    let st := if n < 0 then st.fault (.negativeRepeat n) word else st
    { st with repeats := [⟨n.toInt.toNat, st.line, st.file⟩] }
  else { st with repeats := ⟨0, st.line, st.file⟩ :: st.repeats }

end Sm83Asm.State
