import Sm83Asm.Proofs.Execute.Footprint
import Sm83Asm.Proofs.Run.History

set_option autoImplicit false

/-!
# The setting of a state

Placing labels and bytes, opening sections and removing names change many parts of a state, but
never where a run stands, which blocks are open or which options are in force. The setting of a
state keeps these and blanks out the rest: two states with one setting agree in everything that can
be read from it, by `congrArg`. Instructions change nothing in it but the note of an overflow.
-/

namespace Sm83Asm

namespace State

/-- The state without labels, bytes, sections, names, reports and random numbers. -/
def setting (st : State) : State :=
  { config := st.config
    random := .ofSeed 0
    file := st.file
    line := st.line
    extensions := st.extensions
    printed := st.printed
    charmap := st.charmap
    conditionals := st.conditionals
    repeats := st.repeats
    macroDefs := st.macroDefs
    frames := st.frames
    uniqueIds := st.uniqueIds
    expansions := st.expansions
    options := st.options
    savedOptions := st.savedOptions
    fieldOffset := st.fieldOffset
    overflowed := st.overflowed }

variable (st : State)

/-! ## Labels and names -/

@[simp] theorem setting_closeLabel : st.closeLabel.setting = st.setting := by
  unfold closeLabel
  split
  · rfl
  · rfl

@[simp] theorem setting_defineLabel (label : LabelDef) :
    (st.defineLabel label).setting = st.setting := by
  unfold defineLabel
  dsimp only
  split
  · split
    · rfl
    · split
      · rfl
      · exact st.setting_closeLabel
  · rfl

@[simp] theorem setting_defineLabel? (label : Option LabelDef) :
    (st.defineLabel? label).setting = st.setting := by
  cases label with
  | none => rfl
  | some label => exact st.setting_defineLabel label

theorem setting_exportOne (e : Expr) : (st.exportOne e).setting = st.setting := by
  unfold exportOne
  split
  · split
    · rfl
    · split
      · rfl
      · split
        · rfl
        · rfl
  · rfl

theorem setting_exportAll (names : List Expr) : (st.exportAll names).setting = st.setting := by
  unfold exportAll
  induction names generalizing st with
  | nil => rfl
  | cons e es ih => rw [List.foldl_cons, ih, setting_exportOne]

theorem setting_purgeOne (e : Expr) : (st.purgeOne e).setting = st.setting := by
  unfold purgeOne
  dsimp only
  split
  · split
    · rfl
    · rfl
  · split
    · rfl
    · rfl

theorem setting_purge (names : List Expr) : (st.purge names).setting = st.setting := by
  unfold purge
  induction names generalizing st with
  | nil => rfl
  | cons e es ih => rw [List.foldl_cons, ih, setting_purgeOne]

/-! ## Bytes -/

/-- Placing bytes changes the setting only by what overflows. -/
theorem setting_emitting {α : Type} (x : Act Emission α) :
    (st.emitting x).2.setting =
      { st.setting with overflowed := (x st.emission).state.overflowed } := rfl

theorem setting_emit (bytes : Array UInt8) : (st.emit bytes).setting = st.setting := by
  obtain ⟨_, h⟩ := st.emit_footprint bytes
  rw [h]
  rfl

/-! ## Sections -/

theorem setting_openSection (declared : Section) (token : Token) :
    (st.openSection declared token).setting = st.setting := by
  unfold openSection
  dsimp only
  split
  · split
    · exact st.setting_closeLabel
    · rfl
  · exact setting_closeLabel { st with sections := st.sections.insert declared.name declared }

theorem setting_beginSection (name kind : Expr) (attrs : List Expr) :
    (st.beginSection name kind attrs).setting = st.setting := by
  obtain ⟨random, diagnostics, h | ⟨declared, -, -, h⟩⟩ := st.beginSection_cases name kind attrs
  · rw [h]
    rfl
  · rw [h, setting_openSection]
    rfl

theorem setting_pushSection : st.pushSection.setting = st.setting :=
  st.setting_closeLabel

theorem setting_popSection (word : Token) : (st.popSection word).setting = st.setting := by
  unfold popSection
  dsimp only
  split
  · exact st.setting_closeLabel
  · exact st.setting_closeLabel

end State

namespace Assembler

variable (asm : Assembler)

theorem setting_labelled (own : Bool) (label : Option LabelDef) :
    (if own then asm else asm.mapState (·.defineLabel? label)).state.setting =
      asm.state.setting := by
  cases own with
  | true => rfl
  | false => exact asm.state.setting_defineLabel? label

/-- Of the setting, an instruction changes at most the note of an overflow. -/
theorem setting_instruction (label : Option LabelDef) (word : Token) (args : List Expr) :
    ∃ overflowed, (asm.instruction label word args).state.setting =
      { asm.state.setting with overflowed } := by
  unfold instruction mapState
  dsimp only
  split
  · exact ⟨_, rfl⟩
  · have hlabel := asm.state.setting_defineLabel? label
    generalize asm.state.defineLabel? label = st at hlabel ⊢
    have hbytes := st.setting_emitting (st.scope.encode word args)
    rw [hlabel] at hbytes
    generalize st.emitting (st.scope.encode word args) = result at hbytes ⊢
    obtain ⟨_ | bytes, st'⟩ := result
    · exact ⟨_, hbytes⟩
    · exact ⟨_, (st'.setting_emit _).trans hbytes⟩

theorem setting_statement (line : Nat) (text : String) (st : State) :
    (statement line text st).2.setting = st.setting := by
  obtain ⟨diagnostics, h⟩ := statement_footprint line text st
  rw [h]
  rfl

end Assembler

end Sm83Asm
