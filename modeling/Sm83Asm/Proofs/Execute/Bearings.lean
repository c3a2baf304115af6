import Sm83Asm.Proofs.Execute.Part
import Sm83Asm.Proofs.Table

set_option autoImplicit false

/-!
# The bearings of a run

The bearings of a state say where a run stands: the place in the sources, whether the extensions
are on, the macro calls that are being expanded and the numbers given to expansions. This module
says once what can become of them.

Main statements: of its own account a line moves to its number, may switch the extensions and may
shift the arguments of the innermost call (`Bearings.Moves`, `moves_runLine`), and an expansion
opens a call, a repeat or a file, of which its end takes back everything but a shift
(`Bearings.Opens`, `opens_of_expansionOf?`).
-/

namespace Sm83Asm

/-- Drops further arguments of a macro call. -/
def MacroFrame.drop (f : MacroFrame) (n : Nat) : MacroFrame := { f with shifted := f.shifted + n }

@[simp] theorem MacroFrame.drop_drop (f : MacroFrame) (m n : Nat) :
    (f.drop m).drop n = f.drop (m + n) := by
  simp only [drop, Nat.add_assoc]

/-- Drops further arguments of the innermost of some macro calls. -/
def MacroFrame.dropInner (frames : List MacroFrame) (n : Nat) : List MacroFrame :=
  frames.modifyHead (·.drop n)

@[simp] theorem MacroFrame.dropInner_zero (frames : List MacroFrame) :
    dropInner frames 0 = frames := by
  cases frames with
  | nil => rfl
  | cons f outer => rfl

@[simp] theorem MacroFrame.dropInner_dropInner (frames : List MacroFrame) (m n : Nat) :
    dropInner (dropInner frames m) n = dropInner frames (m + n) := by
  cases frames with
  | nil => rfl
  | cons f outer => simp only [dropInner, List.modifyHead_cons, drop_drop]

/-- Where a run stands. -/
structure Bearings where
  config : Config
  file : String
  line : Nat
  extensions : Bool
  frames : List MacroFrame
  uniqueIds : List Nat
  expansions : Nat

/-- Where the run of a state stands. -/
def State.bearings (st : State) : Bearings :=
  { config := st.config
    file := st.file
    line := st.line
    extensions := st.extensions
    frames := st.frames
    uniqueIds := st.uniqueIds
    expansions := st.expansions }

namespace Bearings

/-- What a line can do to the bearings of its own account. -/
def Moves (a b : Bearings) : Prop :=
  ∃ extensions n, b = { a with extensions, frames := MacroFrame.dropInner a.frames n }

theorem Moves.of_eq {a b : Bearings} (h : b = a) : Moves a b := by
  refine ⟨a.extensions, 0, ?_⟩
  rw [h, MacroFrame.dropInner_zero]

/-- What the beginning of an expansion makes of the bearings, and its end. -/
inductive Opens (a : Bearings) : Bearings → (Bearings → Bearings) → Prop
  | call (frame : MacroFrame) :
      Opens a
        { a with
          frames := frame :: a.frames
          uniqueIds := (a.expansions + 1) :: a.uniqueIds
          expansions := a.expansions + 1 }
        fun b => { b with frames := b.frames.tail, uniqueIds := b.uniqueIds.tail }
  | replay :
      Opens a
        { a with
          uniqueIds := (a.expansions + 1) :: a.uniqueIds
          expansions := a.expansions + 1 }
        fun b => { b with uniqueIds := b.uniqueIds.tail }
  | file (extensions : Bool) :
      Opens a { a with extensions } fun b => { b with extensions := a.extensions }
  | missing : Opens a a id

end Bearings

open Bearings

namespace State

variable (st : State)

/-- The bearings are a part of the setting. -/
theorem bearings_of_setting {st st' : State} (h : st'.setting = st.setting) :
    st'.bearings = st.bearings := by
  have hboth : st'.setting.bearings = st.setting.bearings := congrArg State.bearings h
  exact hboth

theorem bearings_defineLabel? (label : Option LabelDef) :
    (st.defineLabel? label).bearings = st.bearings :=
  bearings_of_setting (st.setting_defineLabel? label)

/-- Bearings are reached by a shift of arguments only. -/
theorem Differs.bearings {st st' : State} {part : Part} (h : st.Differs part st')
    (hpart : part ≠ .arguments) : st'.bearings = st.bearings := by
  cases h with
  | places h => exact bearings_of_setting h
  | arguments => exact absurd rfl hpart
  | _ => rfl

/-! ## Shifting -/

theorem bearings_shift (word : Token) (count : Option Expr) : ∃ n,
    (st.shift word count).bearings =
      { st.bearings with frames := MacroFrame.dropInner st.frames n } := by
  obtain ⟨random, diagnostics, h⟩ := st.numberD_footprint 1 count
  unfold shift
  dsimp only
  rw [h]
  split
  · exact ⟨0, by rw [MacroFrame.dropInner_zero]; rfl⟩
  · dsimp only
    split
    · exact ⟨0, by rw [MacroFrame.dropInner_zero]; rfl⟩
    · rename_i frame outer hframes
      exact ⟨(st.numberD 1 count).1.toInt.toNat, by rw [hframes]; rfl⟩

end State

namespace Assembler

variable (asm : Assembler)

/-! ## Keywords -/

/-- A keyword without a level left shifts arguments at most. -/
theorem bearings_keywordBody (keyword : Keyword) (label : Option LabelDef) (word : Token)
    (args : List Expr) : ∃ n,
      (asm.keywordBody none keyword label word args).state.bearings =
        { asm.state.bearings with frames := MacroFrame.dropInner asm.state.frames n } := by
  by_cases hshift : keyword = .shift
  · subst hshift
    exact asm.state.bearings_shift word args.head?
  · have hpart : keyword.part ≠ .arguments := by
      cases keyword with
      | shift => exact absurd rfl hshift
      | _ => decide
    refine ⟨0, ?_⟩
    rw [(asm.differs_keywordBody keyword label word args).bearings hpart,
      MacroFrame.dropInner_zero]
    rfl

/-! ## Lines -/

theorem moves_withKeyword (label : Option LabelDef) (word : Token) (count : Nat)
    {body : Keyword → Assembler → Assembler}
    (hbody : ∀ keyword (asm : Assembler),
      Moves asm.state.bearings (body keyword asm).state.bearings) :
    Moves asm.state.bearings (asm.withKeyword label word count body).state.bearings := by
  unfold withKeyword
  cases Keyword.ofWord? word.text with
  | none => exact .of_eq rfl
  | some keyword =>
    have hlabel := State.bearings_of_setting (asm.setting_labelled keyword.namesLabel label)
    dsimp only
    generalize (if keyword.namesLabel = true then asm else _) = asm' at hlabel ⊢
    rw [← hlabel]
    split
    · exact hbody keyword asm'
    · exact .of_eq rfl

/-- What a line does to the bearings that expands to nothing, or that has no level left. -/
theorem moves_execute (line : Line) :
    Moves asm.state.bearings (execute none line asm).state.bearings := by
  unfold execute
  rcases line.operation with _ | op
  · exact .of_eq (asm.state.bearings_defineLabel? _)
  · cases op with
    | directive word args =>
      obtain ⟨extensions, _, h⟩ := asm.directive_footprint word
      exact ⟨extensions, 0, by rw [h, MacroFrame.dropInner_zero]; rfl⟩
    | assign word e =>
      exact .of_eq ((asm.state.differs_assign line.label word e).bearings (by decide))
    | keyword word args =>
      refine asm.moves_withKeyword _ _ _ fun keyword asm' => ?_
      obtain ⟨n, h⟩ := asm'.bearings_keywordBody keyword line.label word args
      exact ⟨_, n, h⟩
    | options word args =>
      exact asm.moves_withKeyword _ _ _ fun keyword asm' =>
        .of_eq ((asm'.differs_optionBody keyword args).bearings (by decide))
    | opcode word args =>
      obtain ⟨_, h⟩ := asm.setting_instruction line.label word args
      have hsetting := congrArg State.bearings h
      exact .of_eq hsetting
    | macroCall name args =>
      obtain ⟨_, h⟩ := (asm.mapState (·.defineLabel? line.label)).callMacro_footprint name args
      exact .of_eq (Eq.trans (by rw [h]; rfl) (asm.state.bearings_defineLabel? line.label))

theorem bearings_of_parsed? {line : Nat} {text : String} {asm asm' : Assembler} {parsed : Line}
    (h : parsed? line text asm = some (parsed, asm')) :
    asm'.state.bearings = { asm.state.bearings with line } := by
  have hb := State.bearings_of_setting (setting_statement line text { asm.state with line })
  obtain ⟨st, hst, rfl⟩ := of_parsed? h
  rw [hst] at hb
  exact hb

/-- What a line of text does to the bearings of its own account. -/
theorem moves_runLine (line : Nat) (text : String) :
    Moves { asm.state.bearings with line } (runLine none line text asm).state.bearings := by
  have hb := State.bearings_of_setting (setting_statement line text { asm.state with line })
  unfold runLine
  rcases hst : statement line text { asm.state with line } with ⟨statement, st⟩
  rw [hst] at hb
  change st.bearings = { asm.state.bearings with line } at hb
  rw [← hb]
  cases statement with
  | line parsed => exact moves_execute { asm with state := st } parsed
  | ignored start => exact .of_eq rfl
  | invalid stop => exact .of_eq rfl

/-! ## Expansions -/

/-- An expansion opens something that its end closes. -/
def Expansion.Brackets (x : Expansion) (a : Bearings) : Prop :=
  ∃ close, Opens a x.opened.state.bearings close ∧
    ∀ b, (x.close b).state.bearings = close b.state.bearings

theorem brackets_ofMacro? {name : Token} {args : List Token} {x : Expansion}
    (h : asm.ofMacro? name args = some x) : x.Brackets asm.state.bearings := by
  obtain ⟨body, -, rfl⟩ := Option.map_eq_some_iff.1 h
  exact ⟨_, .call { name := name.text, args := args.map Token.text }, fun _ => rfl⟩

theorem brackets_ofRepeat? {x : Expansion} (h : asm.ofRepeat? = some x) :
    x.Brackets asm.state.bearings := by
  unfold ofRepeat? at h
  split at h
  · cases h
    exact ⟨_, .replay, fun _ => rfl⟩
  · exact absurd h (by simp)

theorem brackets_ofInclude (e : Expr) : (asm.ofInclude e).Brackets asm.state.bearings := by
  unfold ofInclude
  dsimp only
  split
  · exact ⟨_, .missing, fun _ => rfl⟩
  · exact ⟨_, .file _, fun _ => rfl⟩

theorem brackets_expansion? {line : Line} {x : Expansion} (h : expansion? line asm = some x) :
    x.Brackets asm.state.bearings := by
  obtain ⟨asm', hlabel, hx⟩ := expansion?_cases h
  have hb : asm'.state.bearings = asm.state.bearings := by
    rcases hlabel with rfl | rfl
    · rfl
    · exact asm.state.bearings_defineLabel? _
  rw [← hb]
  rcases hx with ⟨name, args, hx⟩ | hx | ⟨e, rfl⟩
  · exact asm'.brackets_ofMacro? hx
  · exact asm'.brackets_ofRepeat? hx
  · exact asm'.brackets_ofInclude e

/-- What the expansion of a line of text opens and closes. -/
theorem opens_of_expansionOf? {line : Nat} {text : String} {x : Expansion}
    (h : expansionOf? line text asm = some x) :
    x.Brackets { asm.state.bearings with line } := by
  obtain ⟨⟨parsed, asm'⟩, hp, hx⟩ := Option.bind_eq_some_iff.1 h
  rw [← bearings_of_parsed? hp]
  exact brackets_expansion? asm' hx

end Assembler

end Sm83Asm
