import Sm83Asm.Proofs.Execute.Part
import Sm83Asm.Proofs.Run.Changes

set_option autoImplicit false

/-!
# What a line does to the open blocks

Conditional blocks, macro definitions and repeats are kept on one stack each. This module says once
what a line can do to them (`Blocks.Step`): the keyword that opens a block puts one entry on its
stack, the keyword that closes one takes one entry off, and everything else leaves the heights of
the stacks as they are. A keyword that has no block to close is an error.

Main statements: `step_visit` for lines of their own account, as long as they leave no error, and
`step_opened` for the beginning of an expansion.
-/

namespace Sm83Asm

/-- The keyword that closes a block. -/
def Block.closer : Block → Keyword
  | .conditional => .endIf
  | .macroBody => .macroEnd
  | .repetition => .endr
  | .union => .endu

/-- Keywords that put an entry on one of the stacks or take one off. -/
def Keyword.delimits : Keyword → Bool
  | .ifTrue | .endIf | .macroStart | .macroEnd | .rept | .endr => true
  | _ => false

/-- The stacks of blocks that lines are recorded in or passed over in. -/
structure Blocks where
  conditionals : List Conditional
  macroDefs : List MacroDef
  repeats : List Repeat

/-- The open blocks of a state. -/
def State.blocks (st : State) : Blocks :=
  { conditionals := st.conditionals, macroDefs := st.macroDefs, repeats := st.repeats }

/-- What a line with a keyword can do to the open blocks. -/
inductive Blocks.Step : Option Keyword → Blocks → Blocks → Prop
  | keep {word : Option Keyword} (hw : word.any Keyword.delimits = false) (b : Blocks) :
      Step word b b
  | turn {word : Option Keyword} (hw : word.any Keyword.delimits = false) {b : Blocks}
      {top : Conditional} {outer : List Conditional} (h : b.conditionals = top :: outer)
      (next : Conditional) : Step word b { b with conditionals := next :: outer }
  | beginIf (b : Blocks) (c : Conditional) :
      Step (some .ifTrue) b { b with conditionals := c :: b.conditionals }
  | endIf {b : Blocks} {c : Conditional} {outer : List Conditional}
      (h : b.conditionals = c :: outer) : Step (some .endIf) b { b with conditionals := outer }
  | beginMacro (b : Blocks) (d : MacroDef) :
      Step (some .macroStart) b { b with macroDefs := d :: b.macroDefs }
  | endMacro {b : Blocks} {d : MacroDef} {outer : List MacroDef} (h : b.macroDefs = d :: outer) :
      Step (some .macroEnd) b { b with macroDefs := outer }
  | beginRepeat (b : Blocks) (r : Repeat) :
      Step (some .rept) b { b with repeats := r :: b.repeats }
  | endRepeat {b : Blocks} {r : Repeat} {outer : List Repeat} (h : b.repeats = r :: outer) :
      Step (some .endr) b { b with repeats := outer }

open Blocks

theorem Blocks.Step.of_eq {word : Option Keyword} {a b : Blocks}
    (hw : word.any Keyword.delimits = false) (h : b = a) : Step word a b := by
  rw [h]
  exact .keep hw a

/-- Parts that hold open blocks. -/
def Part.holdsBlocks : Part → Bool
  | .branches | .macros | .repeats => true
  | _ => false

namespace State

variable (st : State)

/-- The open blocks are a part of the setting. -/
theorem blocks_of_setting {st st' : State} (h : st'.setting = st.setting) :
    st'.blocks = st.blocks := by
  have hboth : st'.setting.blocks = st.setting.blocks := congrArg State.blocks h
  exact hboth

theorem Differs.blocks {st st' : State} {part : Part} (h : st.Differs part st')
    (hpart : part.holdsBlocks = false) : st'.blocks = st.blocks := by
  cases h with
  | places h => exact blocks_of_setting h
  | branches => exact absurd hpart (by decide)
  | macros => exact absurd hpart (by decide)
  | repeats => exact absurd hpart (by decide)
  | _ => rfl

/-! ## Errors -/

/-- No error was reported so far. -/
def IsClean (st : State) : Prop := ∀ d ∈ st.diagnostics, d.isError = false

theorem not_isClean_fault {cause : EvaluationCause}
    (hc : (Cause.evaluation cause).severity = .error) (token : Token) :
    ¬ (st.fault cause token).IsClean := by
  intro h
  have hlast := h ⟨.evaluation cause token, st.file, st.line⟩ (by simp [fault, record])
  have herror : (⟨.evaluation cause token, st.file, st.line⟩ : Diagnostic).isError = true := by
    rw [Diagnostic.isError]
    exact beq_iff_eq.2 hc
  rw [herror] at hlast
  exact absurd hlast (by simp)

/-! ## Keywords of blocks -/

theorem step_beginIf (word : Token) (args : List Expr) :
    Step (some .ifTrue) st.blocks (st.beginIf word args).blocks := by
  unfold beginIf
  split
  · obtain ⟨random, diagnostics, hn⟩ := st.soleNumber_footprint .ifTrue word args
    dsimp only
    rw [hn]
    exact .beginIf st.blocks _
  · exact .beginIf st.blocks _

theorem step_nextIf (word : Token) (args : List Expr) :
    Step (some .elseIf) st.blocks (st.nextIf word args).blocks := by
  unfold nextIf
  split
  · exact .keep rfl _
  · rename_i top outer hc
    split
    · exact .turn rfl hc _
    · obtain ⟨random, diagnostics, hn⟩ := st.soleNumber_footprint .elseIf word args
      dsimp only
      rw [hn]
      exact .turn rfl hc _

theorem step_lastIf (word : Token) :
    Step (some .elseAll) st.blocks (st.lastIf word).blocks := by
  unfold lastIf
  split
  · exact .keep rfl _
  · rename_i top outer hc
    exact .turn rfl hc _

theorem step_endIf (word : Token) (hclean : (st.endIf word).IsClean) :
    Step (some .endIf) st.blocks (st.endIf word).blocks := by
  unfold endIf at hclean ⊢
  cases hc : st.conditionals with
  | nil =>
    rw [hc] at hclean
    exact absurd hclean (st.not_isClean_fault rfl word)
  | cons top outer => exact .endIf hc

theorem step_beginMacro (label : Option LabelDef) (word : Token) (args : List Expr)
    (hclean : (st.beginMacro label word args).IsClean) :
    Step (some .macroStart) st.blocks (st.beginMacro label word args).blocks := by
  unfold beginMacro at hclean ⊢
  cases hn : st.macroName? label args with
  | none =>
    rw [hn] at hclean
    exact absurd hclean (st.not_isClean_fault rfl word)
  | some name => exact .beginMacro st.blocks _

theorem step_endMacro (word : Token) (hclean : (st.endMacro word).IsClean) :
    Step (some .macroEnd) st.blocks (st.endMacro word).blocks := by
  unfold endMacro at hclean ⊢
  split
  · rename_i hm
    rw [hm] at hclean
    exact absurd hclean (st.not_isClean_fault rfl word)
  · rename_i inner outer rest hm
    exact .endMacro hm
  · rename_i definition hm
    dsimp only
    split
    · exact .endMacro hm
    · exact .endMacro hm

theorem step_beginRepeat (word : Token) (args : List Expr) :
    Step (some .rept) st.blocks (st.beginRepeat word args).blocks := by
  unfold beginRepeat
  split
  · rename_i hempty
    obtain ⟨random, diagnostics, hn⟩ := st.soleNumber_footprint .rept word args
    have hnil : st.repeats = [] := List.isEmpty_iff.1 hempty
    have hstep : ∀ r, Step (some .rept) st.blocks { st.blocks with repeats := [r] } := by
      intro r
      have := Step.beginRepeat st.blocks r
      rwa [show st.blocks.repeats = [] from hnil] at this
    dsimp only
    rw [hn]
    split
    · exact hstep _
    · exact hstep _
  · exact .beginRepeat st.blocks _

end State

namespace Assembler

variable (asm : Assembler)

/-- Without a level left, the end of a repeat still closes it. -/
theorem step_endRepeat (word : Token) (hclean : (asm.endRepeat none word).state.IsClean) :
    Step (some .endr) asm.state.blocks (asm.endRepeat none word).state.blocks := by
  unfold endRepeat at hclean ⊢
  split
  · rename_i hr
    rw [hr] at hclean
    exact absurd hclean (asm.state.not_isClean_fault rfl word)
  · rename_i inner outer rest hr
    exact .endRepeat hr
  · rename_i block hr
    exact .endRepeat hr

/-! ## Lines -/

/-- The label in front of a line leaves the open blocks alone. -/
theorem blocks_labelled (own : Bool) (label : Option LabelDef) :
    (if own then asm else asm.mapState (·.defineLabel? label)).state.blocks = asm.state.blocks :=
  State.blocks_of_setting (asm.setting_labelled own label)

/-- What a keyword does to the open blocks, as long as it leaves no error. -/
theorem step_keywordBody (keyword : Keyword) (label : Option LabelDef) (word : Token)
    (args : List Expr)
    (hclean : (asm.keywordBody none keyword label word args).state.IsClean) :
    Step (some keyword) asm.state.blocks
      (asm.keywordBody none keyword label word args).state.blocks := by
  cases hpart : keyword.part.holdsBlocks with
  | false =>
    have hk : keyword.delimits = false := by
      revert hpart
      cases keyword <;> decide
    exact .of_eq hk ((asm.differs_keywordBody keyword label word args).blocks hpart)
  | true =>
    cases keyword with
    | ifTrue => exact asm.state.step_beginIf word args
    | elseIf => exact asm.state.step_nextIf word args
    | elseAll => exact asm.state.step_lastIf word
    | endIf => exact asm.state.step_endIf word hclean
    | macroStart => exact asm.state.step_beginMacro label word args hclean
    | macroEnd => exact asm.state.step_endMacro word hclean
    | rept => exact asm.state.step_beginRepeat word args
    | endr => exact asm.step_endRepeat word hclean
    | _ => exact absurd hpart (by decide)

/-- What a parsed line does to the open blocks. -/
theorem step_execute (line : Line) (hclean : (execute none line asm).state.IsClean) :
    Step line.word? asm.state.blocks (execute none line asm).state.blocks := by
  have hlabel := fun own : Bool => asm.blocks_labelled own line.label
  unfold execute at hclean ⊢
  unfold Line.word?
  rcases hop : line.operation with _ | op
  · exact .of_eq rfl (hlabel false)
  · rw [hop] at hclean
    cases op with
    | directive word args =>
      obtain ⟨_, _, h⟩ := asm.directive_footprint word
      exact .of_eq rfl (by rw [h]; rfl)
    | assign word e =>
      exact .of_eq rfl ((asm.state.differs_assign line.label word e).blocks rfl)
    | keyword word args =>
      dsimp only [withKeyword] at hclean ⊢
      cases hk : Keyword.ofWord? word.text with
      | none => exact .of_eq rfl rfl
      | some keyword =>
        rw [hk] at hclean
        dsimp only at hclean ⊢
        rw [← hlabel keyword.namesLabel, Option.filter_some]
        by_cases hcount :
            (keyword.checksOwnArity || keyword.arity.accepts args.length) = true
        · rw [if_pos hcount] at hclean ⊢
          rw [if_pos hcount]
          exact step_keywordBody _ keyword _ word args hclean
        · rw [if_neg hcount, if_neg hcount]
          exact .keep rfl _
    | options word args =>
      have hword : ∀ w : Option Keyword,
          (w.filter Keyword.takesRawText).any Keyword.delimits = false := by
        intro w
        rcases w with _ | keyword
        · rfl
        · cases keyword <;> rfl
      apply Step.of_eq (hword _)
      dsimp only [withKeyword]
      cases Keyword.ofWord? word.text with
      | none => rfl
      | some keyword =>
        dsimp only
        rw [← hlabel keyword.namesLabel]
        split
        · exact (differs_optionBody _ keyword args).blocks rfl
        · rfl
    | opcode word args =>
      obtain ⟨_, h⟩ := asm.setting_instruction line.label word args
      have hsetting := congrArg State.blocks h
      exact .of_eq rfl hsetting
    | macroCall name args =>
      obtain ⟨_, h⟩ := (asm.mapState (·.defineLabel? line.label)).callMacro_footprint name args
      exact .of_eq rfl (Eq.trans (by rw [h]; rfl) (hlabel false))

/-- What a line does to the open blocks of its own account, as long as it leaves no error. -/
theorem step_visit (v : Visit)
    (hclean : (runLine none v.line v.text v.before).state.IsClean) :
    Step v.word? v.before.state.blocks (runLine none v.line v.text v.before).state.blocks := by
  have hblocks := State.blocks_of_setting
    (setting_statement v.line v.text { v.before.state with line := v.line })
  unfold runLine at hclean ⊢
  unfold Visit.word? parsed?
  rcases hst : statement v.line v.text { v.before.state with line := v.line } with ⟨statement, st⟩
  rw [hst] at hblocks hclean
  change st.blocks = v.before.state.blocks at hblocks
  rw [← hblocks]
  cases statement with
  | line parsed => exact step_execute { v.before with state := st } parsed hclean
  | ignored start => exact .keep rfl _
  | invalid stop => exact .keep rfl _

/-! ## Expansions -/

/-- An expansion begins with the end of a repeat, or leaves the open blocks alone; its end leaves
them alone too. -/
theorem step_expansion? {line : Line} {x : Expansion} (h : expansion? line asm = some x) :
    Step line.word? asm.state.blocks x.opened.state.blocks ∧
      ∀ a, (x.close a).state.blocks = a.state.blocks := by
  have hlabel := fun own : Bool => asm.blocks_labelled own line.label
  unfold expansion? at h
  split at h
  · rename_i name args hop
    obtain ⟨body, -, rfl⟩ := Option.map_eq_some_iff.1 h
    refine ⟨?_, fun _ => rfl⟩
    unfold Line.word?
    rw [hop, ← hlabel false]
    exact .keep rfl _
  · rename_i word args hop
    split at h
    · exact absurd h (by simp)
    · rename_i keyword hk
      dsimp only at h
      split at h
      · rename_i hcount
        unfold Line.word?
        rw [hop, ← hlabel keyword.namesLabel]
        dsimp only
        rw [hk, Option.filter_some, if_pos hcount]
        generalize (if keyword.namesLabel = true then asm else _) = asm' at h ⊢
        -- Only the end of a repeat finds a block to close; an inclusion finds none.
        unfold ofKeyword? at h
        split at h
        · unfold ofRepeat? at h
          split at h
          · rename_i block hr
            cases h
            exact ⟨.endRepeat hr, fun _ => rfl⟩
          · exact absurd h (by simp)
        · cases h
          unfold ofInclude
          dsimp only
          split
          · exact ⟨.keep rfl _, fun _ => rfl⟩
          · exact ⟨.keep rfl _, fun _ => rfl⟩
        · exact absurd h (by simp)
      · exact absurd h (by simp)
  · exact absurd h (by simp)

theorem step_opened (v : Visit) {x : Expansion}
    (hx : expansionOf? v.line v.text v.before = some x) :
    Step v.word? v.before.state.blocks x.opened.state.blocks ∧
      ∀ a, (x.close a).state.blocks = a.state.blocks := by
  obtain ⟨⟨parsed, asm⟩, hp, hx⟩ := Option.bind_eq_some_iff.1 hx
  have hblocks : asm.state.blocks = v.before.state.blocks := by
    obtain ⟨diagnostics, rfl⟩ := parsed?_footprint hp
    rfl
  unfold Visit.word?
  rw [hp, ← hblocks]
  exact asm.step_expansion? hx

end Assembler

end Sm83Asm
