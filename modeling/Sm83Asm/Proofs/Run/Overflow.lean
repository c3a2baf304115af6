import Sm83Asm.Proofs.Execute.Part
import Sm83Asm.Proofs.Instruction.Overflow

set_option autoImplicit false

/-!
# Assemblies that overflow

An overflow ends an assembly without a result. Only an instruction can bring it about: every other
line, whatever it expands to of its own account, leaves the note of an overflow as it is
(`overflowed_execute`), and an instruction leaves a note that is there.

Main statement: an assembly has no result exactly if one of the lines that it carries out is an
instruction whose encoding overflows (`finish?_eq_none_iff`).
-/

namespace Sm83Asm

namespace State

/-- The note of an overflow is a part of the setting. -/
theorem overflowed_of_setting {st st' : State} (h : st'.setting = st.setting) :
    st'.overflowed = st.overflowed := by
  have hsetting := congrArg State.overflowed h
  exact hsetting

/-- No part of a state that a keyword reaches holds the note of an overflow. -/
theorem Differs.overflowed {st st' : State} {part : Part} (h : st.Differs part st') :
    st'.overflowed = st.overflowed := by
  cases h with
  | places h => exact overflowed_of_setting h
  | _ => rfl

/-- Placing bytes takes over the note that is made on the way. -/
theorem overflowed_emitting {α : Type} (st : State) (x : Act Emission α) :
    (st.emitting x).2.overflowed = (x st.emission).state.overflowed := rfl

end State

namespace Assembler

variable (asm : Assembler)

/-! ## Lines -/

theorem overflowed_label (label : Option LabelDef) :
    (asm.state.defineLabel? label).overflowed = asm.state.overflowed :=
  State.overflowed_of_setting (asm.state.setting_defineLabel? label)

/-- Whether an instruction is in a section and overflows, for the first time or again. -/
def EncodingOverflows (label : Option LabelDef) (word : Token) (args : List Expr) : Prop :=
  asm.state.section?.isSome = true ∧
    let st := asm.state.defineLabel? label
    (st.scope.encode word args st.emission).state.overflowed = true

/-- The note behind an instruction in a section is that of its encoding. -/
theorem overflowed_instruction_of_some {label : Option LabelDef} {word : Token}
    {args : List Expr} (h : asm.state.section?.isSome = true) :
    let st := asm.state.defineLabel? label
    (asm.instruction label word args).state.overflowed =
      (st.scope.encode word args st.emission).state.overflowed := by
  obtain ⟨body, hbody⟩ := Option.isSome_iff_exists.1 h
  simp only [instruction, mapState, hbody]
  generalize asm.state.defineLabel? label = st
  have hbytes := st.overflowed_emitting (st.scope.encode word args)
  generalize st.emitting (st.scope.encode word args) = result at hbytes ⊢
  obtain ⟨_ | bytes, st'⟩ := result
  · exact hbytes
  · exact (State.overflowed_of_setting (st'.setting_emit _)).trans hbytes

/-- An instruction overflows in its encoding. -/
theorem overflowed_instruction (label : Option LabelDef) (word : Token) (args : List Expr) :
    (asm.instruction label word args).state.overflowed = true ↔
      asm.state.overflowed = true ∨ asm.EncodingOverflows label word args := by
  by_cases hsection : asm.state.section?.isSome = true
  · have hnote : asm.state.overflowed = true → asm.EncodingOverflows label word args := fun h =>
      ⟨hsection, Scope.keeps_encode _ word args _ ((asm.overflowed_label label).trans h)⟩
    rw [or_iff_right_of_imp hnote, EncodingOverflows, asm.overflowed_instruction_of_some hsection]
    simp only [hsection, true_and]
  · have hnone : asm.state.section? = none := by simpa using hsection
    have hfault : (asm.instruction label word args).state.overflowed = asm.state.overflowed := by
      simp only [instruction, mapState, hnone]
      rfl
    rw [hfault, or_iff_left fun h => hsection h.1]

/-- Whether a line is an instruction that overflows. -/
def LineOverflows (line : Line) : Prop :=
  ∃ word args, line.operation = some (.opcode word args) ∧
    asm.EncodingOverflows line.label word args

theorem overflowed_withKeyword (label : Option LabelDef) (word : Token) (count : Nat)
    {k : Keyword → Assembler → Assembler}
    (hk : ∀ keyword asm', (k keyword asm').state.overflowed = asm'.state.overflowed) :
    (asm.withKeyword label word count k).state.overflowed = asm.state.overflowed := by
  rw [withKeyword]
  cases Keyword.ofWord? word.text with
  | none => rfl
  | some keyword =>
    have hlabel := State.overflowed_of_setting (asm.setting_labelled keyword.namesLabel label)
    dsimp only
    split
    · exact (hk keyword _).trans hlabel
    · exact hlabel

/-- What a line that expands to nothing, or that has no level left, makes of the note. -/
theorem overflowed_execute (line : Line) :
    (execute none line asm).state.overflowed = true ↔
      asm.state.overflowed = true ∨ asm.LineOverflows line := by
  have hother (h : ∀ word args, line.operation ≠ some (.opcode word args)) {asm' : Assembler}
      (hexact : asm'.state.overflowed = asm.state.overflowed) :
      asm'.state.overflowed = true ↔ asm.state.overflowed = true ∨ asm.LineOverflows line := by
    rw [hexact, or_iff_left fun ⟨word, args, hop, _⟩ => h word args hop]
  rw [execute]
  rcases hop : line.operation with _ | op
  · exact hother (by simp [hop]) (asm.overflowed_label line.label)
  · cases op with
    | directive word args =>
      obtain ⟨_, _, h⟩ := asm.directive_footprint word
      exact hother (by simp [hop]) (by rw [h])
    | assign word e =>
      exact hother (by simp [hop]) (asm.state.differs_assign line.label word e).overflowed
    | keyword word args =>
      exact hother (by simp [hop]) (asm.overflowed_withKeyword _ _ _ fun keyword asm' =>
        (asm'.differs_keywordBody keyword line.label word args).overflowed)
    | options word args =>
      exact hother (by simp [hop]) (asm.overflowed_withKeyword _ _ _ fun keyword asm' =>
        (asm'.differs_optionBody keyword args).overflowed)
    | opcode word args =>
      have hline : asm.LineOverflows line ↔ asm.EncodingOverflows line.label word args :=
        ⟨fun ⟨_, _, hop', h⟩ => by cases hop.symm.trans hop'; exact h, fun h => ⟨_, _, hop, h⟩⟩
      rw [hline]
      exact asm.overflowed_instruction line.label word args
    | macroCall name args =>
      obtain ⟨_, h⟩ := (asm.mapState (·.defineLabel? line.label)).callMacro_footprint name args
      exact hother (by simp [hop]) (by rw [h]; exact asm.overflowed_label line.label)

/-! ## Lines of text -/

/-- Whether a line of text is an instruction that overflows. -/
def Visit.Overflows (v : Visit) : Prop :=
  ∃ p ∈ parsed? v.line v.text v.before, p.2.LineOverflows p.1

theorem overflowed_parsed? {line : Nat} {text : String} {asm asm' : Assembler} {parsed : Line}
    (h : parsed? line text asm = some (parsed, asm')) :
    asm'.state.overflowed = asm.state.overflowed := by
  have hsame := State.overflowed_of_setting (setting_statement line text { asm.state with line })
  obtain ⟨st, hst, rfl⟩ := of_parsed? h
  rw [hst] at hsame
  exact hsame

theorem overflowed_runLine (v : Visit) :
    (runLine none v.line v.text v.before).state.overflowed = true ↔
      v.before.state.overflowed = true ∨ v.Overflows := by
  cases hp : parsed? v.line v.text v.before with
  | none =>
    have hsame := State.overflowed_of_setting
      (setting_statement v.line v.text { v.before.state with line := v.line })
    rw [runLine_eq_of_not_parsed none hp]
    simp only [Visit.Overflows, hp]
    simpa using congrArg (· = true) hsame
  | some p =>
    obtain ⟨parsed, asm⟩ := p
    rw [runLine_of_parsed? none hp, overflowed_execute, overflowed_parsed? hp]
    simp [Visit.Overflows, hp]

/-- An instruction expands to nothing. -/
theorem not_overflows_of_expansionOf? {v : Visit} {x : Expansion}
    (h : expansionOf? v.line v.text v.before = some x) : ¬ v.Overflows := by
  rintro ⟨⟨line, asm⟩, hp, word, args, hop, -⟩
  rw [expansionOf?, Option.mem_def.1 hp, Option.bind_some] at h
  dsimp only at h hop
  rw [expansion?, hop] at h
  exact absurd h (by simp)

/-- An expansion neither begins nor ends with arithmetic. -/
theorem overflowed_expansion {v : Visit} {x : Expansion}
    (h : expansionOf? v.line v.text v.before = some x) :
    x.opened.state.overflowed = v.before.state.overflowed ∧
      ∀ a, (x.close a).state.overflowed = a.state.overflowed := by
  obtain ⟨⟨parsed, asm⟩, hp, hx⟩ := Option.bind_eq_some_iff.1 h
  obtain ⟨asm', hlabel, henters⟩ := asm.expansion?_enters hx
  have hsame : asm'.state.overflowed = asm.state.overflowed := by
    rcases hlabel with rfl | rfl
    · rfl
    · exact asm.overflowed_label parsed.label
  obtain ⟨_, _, _, _, _, _, _, hopened⟩ := henters.opened
  refine ⟨?_, fun a => ?_⟩
  · rw [hopened]
    exact hsame.trans (overflowed_parsed? hp)
  · obtain ⟨_, _, _, hclosed⟩ := henters.closed a
    rw [hclosed]

/-! ## Runs -/

/-- A note stays. -/
theorem kept_overflow :
    Kept (fun _ => True) fun a b => a.state.overflowed = true → b.state.overflowed = true where
  refl _ := id
  trans hab hbc := hbc ∘ hab
  plain v _ h := (overflowed_runLine v).2 (.inl h)
  opened _ _ _ hx := (overflowed_expansion hx).1.trans
  closed _ _ hx a := ((overflowed_expansion hx).2 a).trans
  fault _ _ _ := id
  moved _ _ _ _ _ _ := id

/-- Without an instruction that overflows, no note appears. -/
theorem kept_exact :
    Kept (fun v => ¬ v.Overflows)
      fun a b => a.state.overflowed = false → b.state.overflowed = false where
  refl _ := id
  trans hab hbc := hbc ∘ hab
  plain v hv h := by
    rw [← Bool.not_eq_true, overflowed_runLine v, h]
    simpa using hv
  opened _ _ _ hx := (overflowed_expansion hx).1.trans
  closed _ _ hx a := ((overflowed_expansion hx).2 a).trans
  fault _ _ _ := id
  moved _ _ _ _ _ _ := id

/-- A line that is begun is ended. -/
theorem compositional_ended :
    Compositional fun _ _ ms _ => ∀ m ∈ ms, (⟨m.visit, true⟩ : Moment) ∈ ms where
  nil _ _ := by simp
  append hms hns m hm := by
    rw [List.mem_append] at hm ⊢
    exact hm.imp (hms m) (hns m)
  plain v _ := by simp [Visit.around]
  expanded v x n ms b _ _ _ hms m hm := by
    simp only [Visit.around, List.cons_append, List.mem_cons, List.mem_append, List.not_mem_nil,
      or_false] at hm ⊢
    rcases hm with rfl | hm | rfl
    · exact .inr (.inr rfl)
    · exact .inr (.inl (hms m hm))
    · exact .inr (.inr rfl)
  unread _ _ _ _ := by simp
  range hms := hms
  file hms := hms
  load _ _ _ _ _ := by simp

theorem ended_historyOf (sources : List Source) (a : Assembler) :
    ∀ m ∈ a.historyOf sources, (⟨m.visit, true⟩ : Moment) ∈ a.historyOf sources := by
  induction sources generalizing a with
  | nil => simp [historyOf]
  | cons source rest ih =>
    intro m hm
    rw [historyOf, List.mem_append] at hm ⊢
    exact hm.imp (compositional_ended.of_source a source m) (ih _ m)

/-- **Only instructions overflow, and for good**: an assembly has no result exactly if one of the
lines that it carries out, at whatever level, is an instruction whose encoding overflows. -/
theorem finish?_eq_none_iff (config : Config) (files : FileStore) (sources : List Source) :
    let asm := new config files
    (asm.runAll sources).finish? = none ↔ ∃ m ∈ asm.historyOf sources, m.visit.Overflows := by
  intro asm
  have hnone : (asm.runAll sources).finish? = none ↔
      (asm.runAll sources).state.overflowed = true := by
    simp [finish?]
  rw [hnone]
  constructor
  · intro hoverflow
    apply Classical.byContradiction
    intro hquiet
    have hexact := (kept_exact.along_historyOf sources asm fun m hm hv => hquiet ⟨m, hm, hv⟩).whole
      rfl
    rw [hexact] at hoverflow
    exact absurd hoverflow (by simp)
  · rintro ⟨m, hm, hv⟩
    have halong := kept_overflow.along_historyOf sources asm fun _ _ => trivial
    have hafter : m.visit.after.state.overflowed = true := by
      have hplain : expansionOf? m.visit.line m.visit.text m.visit.before = none := by
        cases hx : expansionOf? m.visit.line m.visit.text m.visit.before with
        | none => rfl
        | some x => exact absurd hv (not_overflows_of_expansionOf? hx)
      rw [Visit.after_eq_runLine (.inr hplain), overflowed_runLine]
      exact .inr hv
    exact halong.to_last _ (ended_historyOf sources asm m hm) hafter

end Assembler

end Sm83Asm
