import Sm83Asm.Proofs.Eval.Inside
import Sm83Asm.Proofs.Run.History

set_option autoImplicit false

/-!
# Lines inside conditional blocks

What a line does inside further conditional blocks is what it does outside of them, with the same
blocks around the result, as long as it does not close or turn one of them.

Main statements: `execute_inside` for parsed lines and `expansion?_inside` for what they expand to.
-/

namespace Sm83Asm

namespace State

variable (st : State) (outer : List Conditional)

/-! ## Looking up -/

@[simp] theorem section?_inside : (st.inside outer).section? = st.section? := rfl

@[simp] theorem offset?_inside : (st.inside outer).offset? = st.offset? := rfl

@[simp] theorem qualify_inside : (st.inside outer).qualify = st.qualify := rfl

@[simp] theorem isDefined_inside : (st.inside outer).isDefined = st.isDefined := rfl

@[simp] theorem isPlainName_inside : (st.inside outer).isPlainName = st.isPlainName := rfl

@[simp] theorem macroName?_inside : (st.inside outer).macroName? = st.macroName? := rfl

@[simp] theorem countMember?_inside : (st.inside outer).countMember? = st.countMember? := rfl

/-! ## Evaluating -/

/-- Evaluating does not look at the conditional blocks around it. -/
@[simp] theorem number_inside (e : Expr) :
    (st.inside outer).number e = ((st.number e).1, (st.number e).2.inside outer) := by
  rw [number, scope_inside, Scope.number_inside]
  rfl

/-- A text is computed in the same way inside of other blocks. -/
@[simp] theorem text_inside (e : Expr) :
    (st.inside outer).text e = ((st.text e).1, (st.text e).2.inside outer) := by
  rw [text, scope_inside, Scope.text_inside]
  rfl

@[simp] theorem numberD_inside (default : Int32) (e : Option Expr) :
    (st.inside outer).numberD default e =
      ((st.numberD default e).1, (st.numberD default e).2.inside outer) := by
  cases e with
  | none => rfl
  | some e => exact st.number_inside outer e

/-- The only argument of a keyword counts in the same way inside of other blocks. -/
@[simp] theorem soleNumber_inside (keyword : Keyword) (word : Token) (args : List Expr) :
    (st.inside outer).soleNumber keyword word args =
      ((st.soleNumber keyword word args).1,
        (st.soleNumber keyword word args).2.inside outer) := by
  unfold soleNumber
  split
  · exact st.number_inside outer _
  · rfl

/-! ## Labels and names -/

@[simp] theorem fault_inside (cause : EvaluationCause) (token : Token) :
    (st.inside outer).fault cause token = (st.fault cause token).inside outer := rfl

/-- The label that is still open ends at the same place. -/
@[simp] theorem closeLabel_inside : (st.inside outer).closeLabel = st.closeLabel.inside outer := by
  unfold closeLabel
  rw [inside_openLabel]
  split
  · rfl
  · rfl

/-- Labels are defined without regard to conditional blocks. -/
@[simp] theorem defineLabel_inside (label : LabelDef) :
    (st.inside outer).defineLabel label = (st.defineLabel label).inside outer := by
  unfold defineLabel
  simp only [inside_current, section?_inside, qualify_inside, inside_labels, isDefined_inside,
    closeLabel_inside]
  split
  · split
    · rfl
    · split
      · rfl
      · rfl
  · rfl

@[simp] theorem defineLabel?_inside (label : Option LabelDef) :
    (st.inside outer).defineLabel? label = (st.defineLabel? label).inside outer := by
  cases label with
  | none => rfl
  | some label => exact st.defineLabel_inside outer label

/-- Names for numbers are the same inside of other blocks. -/
@[simp] theorem equ_inside (label : Option LabelDef) (word : Token) (e : Expr) :
    (st.inside outer).equ label word e = (st.equ label word e).inside outer := by
  unfold equ withNewName
  simp only [isDefined_inside, number_inside]
  split
  · rfl
  · split
    · rfl
    · rfl

/-- Names for texts are the same inside of other blocks. -/
@[simp] theorem equs_inside (label : Option LabelDef) (word : Token) (e : Expr) :
    (st.inside outer).equs label word e = (st.equs label word e).inside outer := by
  unfold equs withNewName
  simp only [isDefined_inside, text_inside]
  split
  · rfl
  · split
    · rfl
    · rfl

/-- Variables are set in the same way inside of other blocks. -/
@[simp] theorem assign_inside (label : Option LabelDef) (word : Token) (e : Expr) :
    (st.inside outer).assign label word e = (st.assign label word e).inside outer := by
  unfold assign
  simp only [inside_numbers, inside_strings, inside_macros, number_inside]
  split
  · rfl
  · split
    · rfl
    · rfl

/-- The counter of fields advances in the same way inside of other blocks. -/
@[simp] theorem field_inside (keyword : Keyword) (label : Option LabelDef) (word : Token)
    (count : Option Expr) :
    (st.inside outer).field keyword label word count =
      (st.field keyword label word count).inside outer := by
  unfold field withNewName
  simp only [isDefined_inside, numberD_inside]
  split
  · rfl
  · split
    · rfl
    · rfl

/-- The character map grows in the same way inside of other blocks. -/
@[simp] theorem mapText_inside (key value : Expr) :
    (st.inside outer).mapText key value = (st.mapText key value).inside outer := by
  unfold mapText
  simp only [text_inside, number_inside]
  split
  · rfl
  · split
    · rfl
    · rfl

@[simp] theorem exportOne_inside (e : Expr) :
    (st.inside outer).exportOne e = (st.exportOne e).inside outer := by
  unfold exportOne
  simp only [qualify_inside, inside_labels, isDefined_inside, inside_pendingExports]
  split
  · split
    · rfl
    · split
      · rfl
      · split
        · rfl
        · rfl
  · rfl

/-- Exporting names, one after the other, leaves the blocks around alone. -/
@[simp] theorem exportAll_inside (names : List Expr) :
    (st.inside outer).exportAll names = (st.exportAll names).inside outer := by
  unfold exportAll
  induction names generalizing st with
  | nil => rfl
  | cons e es ih => rw [List.foldl_cons, exportOne_inside, ih, List.foldl_cons]

@[simp] theorem purgeOne_inside (e : Expr) :
    (st.inside outer).purgeOne e = (st.purgeOne e).inside outer := by
  unfold purgeOne
  dsimp only
  have hqualify : ∀ numbers strings vars macros (name : String),
      ({ st.inside outer with numbers, strings, vars, macros } : State).qualify name =
        ({ st with numbers, strings, vars, macros } : State).qualify name := fun _ _ _ _ _ => rfl
  rw [hqualify]
  simp only [isPlainName_inside, inside_labels, inside_symbols, inside_numbers, inside_strings,
    inside_vars, inside_macros]
  split
  · split
    · rfl
    · rfl
  · split
    · rfl
    · rfl

/-- Removing names, one after the other, leaves the blocks around alone. -/
@[simp] theorem purge_inside (names : List Expr) :
    (st.inside outer).purge names = (st.purge names).inside outer := by
  unfold purge
  induction names generalizing st with
  | nil => rfl
  | cons e es ih => rw [List.foldl_cons, purgeOne_inside, ih, List.foldl_cons]

/-! ## Bytes -/

/-- Placing bytes leaves the blocks around alone, whatever is placed. -/
@[simp] theorem emitting_inside {α : Type} (x : Act Emission α) :
    (st.inside outer).emitting x = ((st.emitting x).1, (st.emitting x).2.inside outer) := rfl

/-- The bytes of the open section are changed inside of other blocks as outside. -/
@[simp] theorem mapBytes_inside (f : Array UInt8 → Array UInt8) :
    (st.inside outer).mapBytes f = (st.mapBytes f).inside outer := by
  unfold mapBytes
  rw [inside_current]
  split
  · rfl
  · rfl

@[simp] theorem emit_inside (bytes : Array UInt8) :
    (st.inside outer).emit bytes = (st.emit bytes).inside outer :=
  st.mapBytes_inside outer _

/-- Data is the same inside of other blocks. -/
@[simp] theorem data_inside (keyword : Keyword) (word : Token) (items : List Expr) :
    (st.inside outer).data keyword word items = (st.data keyword word items).inside outer := by
  unfold data
  simp only [offset?_inside, scope_inside, Scope.dataItems_inside, emitting_inside, emit_inside]
  split
  · rfl
  · rfl

/-- Reserved bytes are the same inside of other blocks. -/
@[simp] theorem reserve_inside (word : Token) (count : Expr) (fill : Option Expr) :
    (st.inside outer).reserve word count fill = (st.reserve word count fill).inside outer := by
  unfold reserve
  simp only [offset?_inside, number_inside, inside_options, numberD_inside, emit_inside]
  split
  · rfl
  · split
    · rfl
    · split
      · rfl
      · rfl

/-- A union that begins inside of other blocks has the same place. -/
@[simp] theorem beginUnion_inside (word : Token) :
    (st.inside outer).beginUnion word = (st.beginUnion word).inside outer := by
  unfold beginUnion
  rw [offset?_inside]
  split
  · rfl
  · rfl

/-- A member of a union cuts off the same bytes inside of other blocks. -/
@[simp] theorem nextMember_inside (word : Token) :
    (st.inside outer).nextMember word = (st.nextMember word).inside outer := by
  unfold nextMember
  simp only [countMember?_inside, mapBytes_inside]
  split
  · rfl
  · rfl

/-- The end of a union fills in the same bytes inside of other blocks. -/
@[simp] theorem endUnion_inside (word : Token) :
    (st.inside outer).endUnion word = (st.endUnion word).inside outer := by
  unfold endUnion
  simp only [countMember?_inside, mapBytes_inside, inside_options]
  split
  · rfl
  · rfl

/-! ## Sections -/

@[simp] theorem readAttribute_inside (region : Region) (attrs : Attributes) (e : Expr) :
    (st.inside outer).readAttribute region attrs e =
      ((st.readAttribute region attrs e).1, (st.readAttribute region attrs e).2.inside outer) := by
  unfold readAttribute
  split
  · simp only [number_inside]
    split
    · split
      · rfl
      · split
        · rfl
        · rfl
    · split
      · rfl
      · rfl
    · rfl
  · rfl

/-- Attributes of a section are read in the same way inside of other blocks. -/
@[simp] theorem readAttributes_inside (region : Region) (attrs : Attributes) (es : List Expr) :
    (st.inside outer).readAttributes region attrs es =
      ((st.readAttributes region attrs es).1,
        (st.readAttributes region attrs es).2.inside outer) := by
  induction es generalizing st attrs with
  | nil => rfl
  | cons e es ih =>
    unfold readAttributes
    rw [readAttribute_inside]
    rcases st.readAttribute region attrs e with ⟨_ | attrs', st'⟩
    · rfl
    · exact ih st' attrs'

@[simp] theorem fixedAddress_inside (region : Region) (e : Option Expr) :
    (st.inside outer).fixedAddress region e =
      ((st.fixedAddress region e).1, (st.fixedAddress region e).2.inside outer) := by
  cases e with
  | none => rfl
  | some e =>
    simp only [fixedAddress, number_inside]
    split
    · rfl
    · rfl

/-- A section is opened, or refused, in the same way inside of other blocks. -/
@[simp] theorem openSection_inside (declared : Section) (token : Token) :
    (st.inside outer).openSection declared token =
      (st.openSection declared token).inside outer := by
  unfold openSection
  have hclose : ∀ sections, ({ st.inside outer with sections } : State).closeLabel =
      ({ st with sections } : State).closeLabel.inside outer := fun sections =>
    closeLabel_inside { st with sections } outer
  simp only [inside_sections, hclose]
  split
  · split
    · rfl
    · rfl
  · rfl

/-- `SECTION` does the same inside of other blocks. -/
@[simp] theorem beginSection_inside (name kind : Expr) (attrs : List Expr) :
    (st.inside outer).beginSection name kind attrs =
      (st.beginSection name kind attrs).inside outer := by
  unfold beginSection
  simp only [text_inside, fixedAddress_inside]
  split
  · rfl
  · rename_i region hregion
    rcases (st.text name).2.fixedAddress region (regionParts kind).2 with ⟨_ | address, st'⟩
    · rfl
    · simp only [readAttributes_inside]
      rcases st'.readAttributes region {} attrs with ⟨_ | attributes, st''⟩
      · rfl
      · exact st''.openSection_inside outer _ _

/-- Setting a section aside has nothing to do with conditional blocks. -/
@[simp] theorem pushSection_inside :
    (st.inside outer).pushSection = st.pushSection.inside outer := by
  unfold pushSection
  rw [closeLabel_inside]
  rfl

/-- A section that was set aside comes back without regard to conditional blocks. -/
@[simp] theorem popSection_inside (word : Token) :
    (st.inside outer).popSection word = (st.popSection word).inside outer := by
  unfold popSection
  simp only [closeLabel_inside, inside_savedScopes]
  split
  · rfl
  · rfl

/-! ## Macro definitions and repeats -/

/-- The definition of a macro begins in the same way inside of other blocks. -/
@[simp] theorem beginMacro_inside (label : Option LabelDef) (word : Token) (args : List Expr) :
    (st.inside outer).beginMacro label word args =
      (st.beginMacro label word args).inside outer := by
  unfold beginMacro
  rw [macroName?_inside]
  split
  · rfl
  · rfl

/-- A macro is recorded in the same way inside of other blocks. -/
@[simp] theorem endMacro_inside (word : Token) :
    (st.inside outer).endMacro word = (st.endMacro word).inside outer := by
  unfold endMacro
  have hdefined : ({ st.inside outer with macroDefs := [] } : State).isDefined =
      ({ st with macroDefs := [] } : State).isDefined := rfl
  simp only [inside_macroDefs, hdefined]
  split
  · rfl
  · rfl
  · split
    · rfl
    · rfl

/-- Arguments are shifted away in the same way inside of other blocks. -/
@[simp] theorem shift_inside (word : Token) (count : Option Expr) :
    (st.inside outer).shift word count = (st.shift word count).inside outer := by
  unfold shift
  simp only [numberD_inside, inside_frames]
  split
  · rfl
  · split
    · rfl
    · rfl

/-- A repeat begins in the same way inside of other blocks. -/
@[simp] theorem beginRepeat_inside (word : Token) (args : List Expr) :
    (st.inside outer).beginRepeat word args = (st.beginRepeat word args).inside outer := by
  unfold beginRepeat
  simp only [inside_repeats, soleNumber_inside]
  split
  · split
    · rfl
    · rfl
  · rfl

/-! ## Options and messages -/

@[simp] theorem changeOption_inside (arg : Token) :
    (st.inside outer).changeOption arg = (st.changeOption arg).inside outer := by
  unfold changeOption
  rw [inside_options]
  split
  · rfl
  · rfl

/-- Options change in the same way inside of other blocks. -/
@[simp] theorem changeOptions_inside (args : List Token) :
    (st.inside outer).changeOptions args = (st.changeOptions args).inside outer := by
  unfold changeOptions
  induction args generalizing st with
  | nil => rfl
  | cons arg args ih => rw [List.foldl_cons, changeOption_inside, ih, List.foldl_cons]

/-- Options are set aside in the same way inside of other blocks. -/
@[simp] theorem pushOptions_inside (args : List Token) :
    (st.inside outer).pushOptions args = (st.pushOptions args).inside outer :=
  changeOptions_inside { st with savedOptions := st.options :: st.savedOptions } outer args

/-- Options that were set aside come back without regard to conditional blocks. -/
@[simp] theorem popOptions_inside (word : Token) :
    (st.inside outer).popOptions word = (st.popOptions word).inside outer := by
  unfold popOptions
  rw [inside_savedOptions]
  split
  · rfl
  · rfl

/-- What is printed does not depend on the blocks around. -/
@[simp] theorem printValue_inside (keyword : Keyword) (e : Expr) :
    (st.inside outer).printValue keyword e = (st.printValue keyword e).inside outer := by
  unfold printValue
  simp only [text_inside, number_inside]
  split
  · rfl
  · rfl
  · rfl
  · rfl

/-- What the source reports on its own does not depend on the blocks around. -/
@[simp] theorem userMessage_inside (keyword : Keyword) (word : Token) (e : Expr) :
    (st.inside outer).userMessage keyword word e =
      (st.userMessage keyword word e).inside outer := by
  simp only [userMessage, text_inside, fault_inside]

@[simp] theorem reseed_inside (e : Expr) :
    (st.inside outer).reseed e = (st.reseed e).inside outer := by
  simp only [reseed, number_inside]
  rfl

/-! ## Conditional blocks -/

section Blocks

variable {outer} (ho : outer.all (·.condition) = true)

include ho

theorem conditionsTrue_inside : (st.inside outer).conditionsTrue = st.conditionsTrue := by
  simp only [conditionsTrue, inside_conditionals, List.all_append, ho, Bool.and_true]

/-- Around the innermost block, the blocks further out are asked too: they are all live. -/
theorem outerConditionsTrue_inside (hc : st.conditionals ≠ []) :
    (st.inside outer).outerConditionsTrue = st.outerConditionsTrue := by
  simp only [outerConditionsTrue, inside_conditionals, List.tail_append_of_ne_nil hc,
    List.all_append, ho, Bool.and_true]

/-- A block that begins inside of others is put on top of them. -/
theorem beginIf_inside (word : Token) (args : List Expr) :
    (st.inside outer).beginIf word args = (st.beginIf word args).inside outer := by
  unfold beginIf
  simp only [conditionsTrue_inside st ho, soleNumber_inside]
  split
  · rfl
  · rfl

/-- `ELIF` turns the innermost block and no other. -/
theorem nextIf_inside (hc : st.conditionals ≠ []) (word : Token) (args : List Expr) :
    (st.inside outer).nextIf word args = (st.nextIf word args).inside outer := by
  unfold nextIf
  rw [outerConditionsTrue_inside st ho hc]
  obtain ⟨top, rest, h⟩ := List.exists_cons_of_ne_nil hc
  simp only [inside_conditionals, h, List.cons_append, soleNumber_inside]
  split
  · rfl
  · rfl

end Blocks

/-- `ELSE` turns the innermost block and no other. -/
theorem lastIf_inside (hc : st.conditionals ≠ []) (word : Token) :
    (st.inside outer).lastIf word = (st.lastIf word).inside outer := by
  obtain ⟨top, rest, h⟩ := List.exists_cons_of_ne_nil hc
  simp only [lastIf, inside_conditionals, h, List.cons_append]
  rfl

/-- `ENDC` closes the innermost block and no other. -/
theorem endIf_inside (hc : st.conditionals ≠ []) (word : Token) :
    (st.inside outer).endIf word = (st.endIf word).inside outer := by
  obtain ⟨top, rest, h⟩ := List.exists_cons_of_ne_nil hc
  simp only [endIf, inside_conditionals, h, List.cons_append]
  rfl

/-- A label leaves the conditional blocks alone. -/
theorem conditionals_defineLabel? (label : Option LabelDef) :
    (st.defineLabel? label).conditionals = st.conditionals := by
  have hclose : st.closeLabel.conditionals = st.conditionals := by
    unfold closeLabel
    split
    · rfl
    · rfl
  cases label with
  | none => rfl
  | some label =>
    unfold defineLabel? defineLabel
    dsimp only
    split
    · split
      · rfl
      · split
        · rfl
        · exact hclose
    · rfl

end State

/-- Keywords that close the innermost conditional block, or turn to its next branch. -/
def Keyword.turnsBlock : Keyword → Bool
  | .elseIf | .elseAll | .endIf => true
  | _ => false

/-- Whether a parsed line closes or turns a conditional block. -/
def Line.turnsBlock (line : Line) : Bool :=
  match line.operation with
  | some (.keyword word args) =>
    (Keyword.ofWord? word.text).any fun keyword =>
      keyword.turnsBlock && (keyword.checksOwnArity || keyword.arity.accepts args.length)
  | _ => false

namespace Assembler

/-- The assembler inside further conditional blocks. -/
def inside (asm : Assembler) (outer : List Conditional) : Assembler :=
  asm.mapState (·.inside outer)

variable (asm : Assembler) {outer : List Conditional}

@[simp] theorem state_inside : (asm.inside outer).state = asm.state.inside outer := rfl

@[simp] theorem files_inside : (asm.inside outer).files = asm.files := rfl

@[simp] theorem sources_inside : (asm.inside outer).sources = asm.sources := rfl

/-! ## Keywords -/

/-- The bytes of a file are the same inside of other blocks. -/
theorem includeBytes_inside (word : Token) (e : Expr) (start length : Option Expr) :
    (asm.inside outer).includeBytes word e start length =
      (asm.includeBytes word e start length).inside outer := by
  unfold includeBytes
  simp only [state_inside, State.section?_inside, State.text_inside, State.numberD_inside,
    State.inside_file, files_inside]
  split
  · rfl
  · split
    · rfl
    · generalize (if length.isSome = true then _ else _ : Nat) = past
      split
      · simp only [mapState, State.emit_inside]
        rfl
      · rfl

/-- Without a level left, the end of a repeat does the same inside of other blocks. -/
theorem endRepeat_inside (word : Token) :
    (asm.inside outer).endRepeat none word = (asm.endRepeat none word).inside outer := by
  unfold endRepeat
  simp only [state_inside, State.inside_repeats]
  split
  · rfl
  · rfl
  · rfl

/-- A keyword that does not expand, unless it would close or turn a block around it. -/
theorem keywordBody_inside (ho : outer.all (·.condition) = true) (keyword : Keyword)
    (label : Option LabelDef) (word : Token) (args : List Expr)
    (h : asm.state.conditionals ≠ [] ∨ keyword.turnsBlock = false) :
    (asm.inside outer).keywordBody none keyword label word args =
      (asm.keywordBody none keyword label word args).inside outer := by
  have hmap : ∀ f : State → State, f (asm.state.inside outer) = (f asm.state).inside outer →
      (asm.inside outer).mapState f = (asm.mapState f).inside outer := by
    intro f hf
    simp only [inside, mapState, hf]
  unfold keywordBody
  split
  · exact hmap _ (State.data_inside _ _ _ _ _)
  · exact hmap _ (State.data_inside _ _ _ _ _)
  · exact hmap _ (State.data_inside _ _ _ _ _)
  · exact hmap _ (State.reserve_inside _ _ _ _ _)
  · exact hmap _ (State.equ_inside _ _ _ _ _)
  · exact hmap _ (State.equs_inside _ _ _ _ _)
  · exact hmap _ (State.assign_inside _ _ _ _ _)
  · exact hmap _ (State.field_inside _ _ _ _ _ _)
  · exact hmap _ (State.field_inside _ _ _ _ _ _)
  · exact hmap _ (State.field_inside _ _ _ _ _ _)
  · exact hmap _ rfl
  · exact hmap _ (by simp only [State.number_inside]; rfl)
  · exact hmap _ (State.mapText_inside _ _ _ _)
  · exact hmap _ (State.beginIf_inside _ ho _ _)
  · exact hmap _ (State.nextIf_inside _ ho (h.resolve_right (by decide)) _ _)
  · exact hmap _ (State.lastIf_inside _ _ (h.resolve_right (by decide)) _)
  · exact hmap _ (State.endIf_inside _ _ (h.resolve_right (by decide)) _)
  · exact hmap _ (State.beginMacro_inside _ _ _ _ _)
  · exact hmap _ (State.endMacro_inside _ _ _)
  · exact hmap _ (State.shift_inside _ _ _ _)
  · exact hmap _ (State.beginRepeat_inside _ _ _ _)
  · exact asm.endRepeat_inside word
  · exact hmap _ (State.beginUnion_inside _ _ _)
  · exact hmap _ (State.nextMember_inside _ _ _)
  · exact hmap _ (State.endUnion_inside _ _ _)
  · simp only [includeFile, state_inside, State.text_inside]
    rfl
  · exact asm.includeBytes_inside _ _ _ _
  · exact hmap _ (State.exportAll_inside _ _ _)
  · exact hmap _ (State.exportAll_inside _ _ _)
  · exact hmap _ (State.purge_inside _ _ _)
  · exact hmap _ (State.beginSection_inside _ _ _ _ _)
  · exact hmap _ (State.pushSection_inside _ _)
  · exact hmap _ (State.popSection_inside _ _ _)
  · exact hmap _ (State.popOptions_inside _ _ _)
  · exact hmap _ (State.userMessage_inside _ _ _ _ _)
  · exact hmap _ (State.userMessage_inside _ _ _ _ _)
  · exact hmap _ (State.printValue_inside _ _ _ _)
  · exact hmap _ (State.printValue_inside _ _ _ _)
  · exact hmap _ (State.printValue_inside _ _ _ _)
  · exact hmap _ (State.printValue_inside _ _ _ _)
  · exact hmap _ (State.reseed_inside _ _ _)
  · rfl

/-! ## Lines -/

/-- Whether a keyword names its label or only stands behind it, the label is treated in the same
way. -/
theorem labelled_inside (own : Bool) (label : Option LabelDef) :
    (if own then asm.inside outer else (asm.inside outer).mapState (·.defineLabel? label)) =
      (if own then asm else asm.mapState (·.defineLabel? label)).inside outer := by
  cases own with
  | true => rfl
  | false => simp only [Bool.false_eq_true, if_false, inside, mapState, State.defineLabel?_inside]

theorem conditionals_labelled (own : Bool) (label : Option LabelDef) :
    (if own then asm else asm.mapState (·.defineLabel? label)).state.conditionals =
      asm.state.conditionals := by
  cases own with
  | true => rfl
  | false => exact asm.state.conditionals_defineLabel? label

/-- An instruction is the same inside of other blocks. -/
theorem instruction_inside (label : Option LabelDef) (word : Token) (args : List Expr) :
    (asm.inside outer).instruction label word args =
      (asm.instruction label word args).inside outer := by
  unfold instruction
  simp only [inside, mapState, State.section?_inside, State.defineLabel?_inside,
    State.scope_inside, Scope.encode_inside, State.emitting_inside]
  split
  · rfl
  · rcases State.emitting _ _ with ⟨_ | bytes, st⟩
    · rfl
    · simp only [State.emit_inside]

/-- Without a level left, a macro call does the same inside of other blocks. -/
theorem callMacro_inside (name : Token) (args : List Token) :
    (asm.inside outer).callMacro none name args = (asm.callMacro none name args).inside outer := by
  unfold callMacro
  simp only [state_inside, State.inside_macros]
  split
  · rfl
  · rfl

/-- A parsed line that does not expand, unless it would close or turn a block around it. -/
theorem execute_inside (ho : outer.all (·.condition) = true) (line : Line)
    (h : asm.state.conditionals ≠ [] ∨ line.turnsBlock = false) :
    execute none line (asm.inside outer) = (execute none line asm).inside outer := by
  unfold Line.turnsBlock at h
  unfold execute
  rcases hop : line.operation with _ | op
  · simp only [inside, mapState, State.defineLabel?_inside]
  · cases op with
    | directive word args =>
      dsimp only [directive]
      split
      · rfl
      · rfl
      · rfl
    | assign word e => simp only [inside, mapState, State.assign_inside]
    | keyword word args =>
      rw [hop] at h
      dsimp only [withKeyword] at h ⊢
      cases hk : Keyword.ofWord? word.text with
      | none => rfl
      | some keyword =>
        rw [hk, Option.any_some] at h
        dsimp only
        rw [labelled_inside]
        have hc := asm.conditionals_labelled keyword.namesLabel line.label
        generalize (if keyword.namesLabel = true then asm else _) = asm' at hc ⊢
        rw [← hc] at h
        split
        · rename_i harity
          -- A keyword that is refused for its arguments turns no block.
          rw [harity, Bool.and_true] at h
          exact asm'.keywordBody_inside ho keyword _ word args h
        · rfl
    | options word args =>
      dsimp only [withKeyword]
      cases hk : Keyword.ofWord? word.text with
      | none => rfl
      | some keyword =>
        dsimp only
        rw [labelled_inside]
        split
        · unfold optionBody
          simp only [inside, mapState, State.pushOptions_inside, State.changeOptions_inside]
          split
          · rfl
          · rfl
        · rfl
    | opcode word args => exact asm.instruction_inside _ word args
    | macroCall name args =>
      have hlabel : (asm.inside outer).mapState (·.defineLabel? line.label) =
          (asm.mapState (·.defineLabel? line.label)).inside outer :=
        asm.labelled_inside false line.label
      dsimp only
      rw [hlabel, callMacro_inside]

/-! ## Expansions -/

/-- The expansion inside further conditional blocks. -/
def Expansion.inside (x : Expansion) (outer : List Conditional) : Expansion :=
  { x with opened := x.opened.inside outer }

/-- The expansion of a macro call takes the blocks around along. -/
theorem ofMacro?_inside (name : Token) (args : List Token) :
    (asm.inside outer).ofMacro? name args = (asm.ofMacro? name args).map (·.inside outer) := by
  unfold ofMacro?
  simp only [state_inside, State.inside_macros, Option.map_map]
  rfl

/-- The expansion of a keyword takes the blocks around along. -/
theorem ofKeyword?_inside (keyword : Keyword) (args : List Expr) :
    (asm.inside outer).ofKeyword? keyword args =
      (asm.ofKeyword? keyword args).map (·.inside outer) := by
  unfold ofKeyword?
  split
  · unfold ofRepeat?
    simp only [state_inside, State.inside_repeats, State.inside_line]
    split
    · rfl
    · rfl
  · unfold ofInclude
    simp only [state_inside, State.text_inside, State.inside_file, files_inside]
    rcases asm.files.retrieve _ _ with ⟨_ | ⟨name, contents⟩, files⟩
    · rfl
    · rfl
  · rfl

theorem expansion?_inside (line : Line) :
    expansion? line (asm.inside outer) = (expansion? line asm).map (·.inside outer) := by
  unfold expansion?
  split
  · have hlabel : (asm.inside outer).mapState (·.defineLabel? line.label) =
        (asm.mapState (·.defineLabel? line.label)).inside outer :=
      asm.labelled_inside false line.label
    rw [hlabel, ofMacro?_inside]
  · split
    · rfl
    · dsimp only
      rw [labelled_inside]
      split
      · exact ofKeyword?_inside _ _ _
      · rfl
  · rfl

/-- The end of an expansion does not look at the blocks. -/
theorem close_inside {line : Line} {x : Expansion} (h : expansion? line asm = some x)
    (b : Assembler) : x.close (b.inside outer) = (x.close b).inside outer := by
  obtain ⟨asm', -, hx⟩ := expansion?_cases h
  rcases hx with ⟨name, args, hx⟩ | hx | ⟨e, rfl⟩
  · obtain ⟨body, -, rfl⟩ := Option.map_eq_some_iff.1 hx
    rfl
  · unfold ofRepeat? at hx
    split at hx
    · cases hx
      rfl
    · exact absurd hx (by simp)
  · unfold ofInclude
    dsimp only
    split
    · rfl
    · rfl

end Assembler

end Sm83Asm
