import Sm83Asm.Proofs.Execute.Part
import Sm83Asm.Proofs.Layout.Scopes
import Sm83Asm.Proofs.Run.Changes

set_option autoImplicit false

/-!
# The stack of options

The options in force lie on top of those that were saved. This module says what a line does to the
saved ones, by its keyword alone (`State.savedAfter`): `PUSHO` saves the options, `POPO` takes the
last saved ones off, and nothing else reaches them. `OPT` changes the top of the stack only.

Main statements: `savedOptions_visit` for lines of their own account and `optionStack_expansionOf?`
for the beginning and the end of an expansion.
-/

namespace Sm83Asm

/-- The saved options after a line with a keyword. -/
def State.savedAfter (st : State) : Option Keyword → List Options
  | some .pusho => st.optionStack
  | some .popo => st.savedOptions.tail
  | _ => st.savedOptions

theorem State.savedAfter_of_ne (st : State) {word : Option Keyword} (hpush : word ≠ some .pusho)
    (hpop : word ≠ some .popo) : st.savedAfter word = st.savedOptions := by
  unfold savedAfter
  split
  · exact absurd rfl hpush
  · exact absurd rfl hpop
  · rfl

theorem State.savedAfter_congr {st st' : State} (h : st'.optionStack = st.optionStack)
    (word : Option Keyword) : st'.savedAfter word = st.savedAfter word := by
  have hsaved : st'.savedOptions = st.savedOptions := (List.cons.inj h).2
  unfold savedAfter
  split
  · exact h
  · rw [hsaved]
  · exact hsaved

theorem State.optionStack_of_setting {st st' : State} (h : st'.setting = st.setting) :
    st'.optionStack = st.optionStack := by
  have hstack : st'.setting.optionStack = st.setting.optionStack := congrArg State.optionStack h
  exact hstack

/-- What reaches another part leaves the stack of options alone. -/
theorem State.Differs.optionStack {st st' : State} {part : Part} (h : st.Differs part st')
    (hpart : part ≠ .options) : st'.optionStack = st.optionStack := by
  cases h with
  | places h => exact optionStack_of_setting h
  | options => exact absurd rfl hpart
  | _ => rfl

/-! ## Operations -/

theorem State.savedOptions_pushOptions (st : State) (args : List Token) :
    (st.pushOptions args).savedOptions = st.optionStack := by
  obtain ⟨_, _, h⟩ :=
    changeOptions_footprint { st with savedOptions := st.options :: st.savedOptions } args
  rw [pushOptions, h]
  rfl

theorem State.savedOptions_changeOptions (st : State) (args : List Token) :
    (st.changeOptions args).savedOptions = st.savedOptions := by
  obtain ⟨_, _, h⟩ := st.changeOptions_footprint args
  rw [h]

theorem State.savedOptions_popOptions (st : State) (word : Token) :
    (st.popOptions word).savedOptions = st.savedOptions.tail := by
  unfold popOptions
  split
  · rename_i hs
    show st.savedOptions = _
    rw [hs]
    rfl
  · rename_i options outer hs
    rw [hs]
    rfl

/-- `POPO` leaves the saved options as the whole stack. -/
theorem State.optionStack_popOptions {st : State} (h : st.savedOptions ≠ []) (word : Token) :
    (st.popOptions word).optionStack = st.savedOptions := by
  unfold popOptions
  split
  · rename_i hs
    exact absurd hs h
  · rename_i options outer hs
    exact hs.symm

namespace Assembler

variable (asm : Assembler)

/-- No keyword reaches the stack of options but `POPO` and those in front of option texts. -/
theorem optionStack_keywordBody {keyword : Keyword} (hk : keyword.part ≠ .options)
    (label : Option LabelDef) (word : Token) (args : List Expr) :
    (asm.keywordBody none keyword label word args).state.optionStack = asm.state.optionStack :=
  (asm.differs_keywordBody keyword label word args).optionStack hk

/-- What a keyword with expressions behind it does to the saved options. -/
theorem savedOptions_keywordBody {keyword : Keyword} (hk : keyword.takesRawText = false)
    (label : Option LabelDef) (word : Token) (args : List Expr) :
    (asm.keywordBody none keyword label word args).state.savedOptions =
      asm.state.savedAfter (some keyword) := by
  by_cases hpop : keyword = .popo
  · subst hpop
    exact asm.state.savedOptions_popOptions word
  · have hpush : keyword ≠ .pusho := by
      rintro rfl
      exact absurd hk (by decide)
    have hpart : keyword.part ≠ .options := by
      cases keyword with
      | opt => exact absurd hk (by decide)
      | pusho => exact absurd rfl hpush
      | popo => exact absurd rfl hpop
      | _ => decide
    rw [asm.state.savedAfter_of_ne (by simpa using hpush) (by simpa using hpop)]
    exact (List.cons.inj (asm.optionStack_keywordBody hpart label word args)).2

/-- What `OPT` and `PUSHO` do to the saved options. -/
theorem savedOptions_optionBody (keyword : Keyword) (args : List Token) :
    (asm.optionBody keyword args).state.savedOptions =
      asm.state.savedAfter ((some keyword).filter Keyword.takesRawText) := by
  unfold optionBody
  split
  · exact asm.state.savedOptions_pushOptions args
  · rename_i hpush
    rw [State.savedAfter_of_ne]
    · exact asm.state.savedOptions_changeOptions args
    · intro h
      exact hpush (Option.some.inj (Option.filter_eq_some_iff.1 h).1)
    · intro h
      obtain ⟨hword, hraw⟩ := Option.filter_eq_some_iff.1 h
      exact absurd hraw (by simp [Keyword.takesRawText])

end Assembler

/-! ## Lines -/

/-- A keyword that stands in front of expressions does not take option texts. -/
def Line.TakesExpressions (line : Line) : Prop :=
  ∀ word args, line.operation = some (.keyword word args) →
    (Keyword.ofWord? word.text).any Keyword.takesRawText = false

/-- The parser reads option texts behind every keyword that takes them. -/
theorem Parser.takesRawText_of_operationPart {eol : Token} {label : Option LabelDef}
    {tokens rest : List Token} {word : Token} {args : List Expr}
    (h : operationPart eol label tokens = .ok (some (.keyword word args), rest)) :
    (Keyword.ofWord? word.text).any Keyword.takesRawText = false := by
  unfold operationPart at h
  split at h
  · exact absurd h (by simp)
  · split at h
    case h_3 =>
      split at h
      · obtain ⟨_, -, h⟩ := map_eq_ok.1 h
        exact absurd h (by simp)
      · split at h
        · exact absurd h (by simp)
        · rename_i t ts _ _ hraw
          obtain ⟨_, -, h⟩ := map_eq_ok.1 h
          simp only [Prod.mk.injEq, Option.some.injEq, Operation.keyword.injEq] at h
          rw [← h.1.1]
          exact Bool.eq_false_iff.2 hraw
    case h_5 =>
      split at h
      · obtain ⟨_, -, h⟩ := map_eq_ok.1 h
        exact absurd h (by simp)
      · exact absurd h (by simp)
    case h_4 => exact absurd h (by simp)
    case h_6 => exact absurd h (by simp)
    all_goals
      obtain ⟨_, -, h⟩ := map_eq_ok.1 h
      exact absurd h (by simp)

theorem Parser.takesExpressions_of_line {eol : Token} {tokens : List Token} {line : Line}
    (h : Parser.line eol tokens = .ok line) : line.TakesExpressions := by
  intro word args hop
  obtain ⟨start, -, h⟩ := bind_eq_ok.1 h
  obtain ⟨⟨operation, rest⟩, hpart, h⟩ := bind_eq_ok.1 h
  have hline : operation = line.operation := by
    dsimp only at h
    split at h
    · obtain rfl := Except.ok.inj h
      rfl
    · split at h
      · obtain rfl := Except.ok.inj h
        rfl
      · exact absurd h (by simp [fail])
  rw [hline, hop] at hpart
  exact takesRawText_of_operationPart hpart

/-- The words that are kept of lines which are passed over delimit blocks. -/
theorem State.takesExpressions_of_passOver? {st : State} {tokens : List Token} {parsed : Line}
    (h : st.passOver? tokens = some (.line parsed)) : parsed.TakesExpressions := by
  obtain ⟨start, word, keyword, hmem, hk, rfl⟩ := bare_of_passOver? h
  have hdelimits : ∀ k ∈ Keyword.rept :: .endr :: blockWords, k.takesRawText = false := by decide
  intro word' args hop
  obtain ⟨rfl, -⟩ := Operation.keyword.inj (Option.some.inj hop)
  rw [hk]
  exact hdelimits keyword hmem

namespace Assembler

theorem takesExpressions_of_parsed? {line : Nat} {text : String} {asm asm' : Assembler}
    {parsed : Line} (h : parsed? line text asm = some (parsed, asm')) :
    parsed.TakesExpressions := by
  obtain ⟨st, hst, -⟩ := of_parsed? h
  rcases statement_cases hst with hpass | ⟨-, hparsed⟩
  · exact State.takesExpressions_of_passOver? hpass
  · exact Parser.takesExpressions_of_line (of_parseLine hparsed)

variable (asm : Assembler)

/-- The label in front of a line leaves the stack of options alone. -/
theorem optionStack_labelled (own : Bool) (label : Option LabelDef) :
    (if own then asm else asm.mapState (·.defineLabel? label)).state.optionStack =
      asm.state.optionStack :=
  State.optionStack_of_setting (asm.setting_labelled own label)

/-- What a parsed line does to the saved options. -/
theorem savedOptions_execute {line : Line} (hline : line.TakesExpressions) :
    (execute none line asm).state.savedOptions = asm.state.savedAfter line.word? := by
  have hlabel := fun own : Bool => asm.optionStack_labelled own line.label
  have hkept : ∀ {st : State}, st.optionStack = asm.state.optionStack →
      st.savedOptions = asm.state.savedOptions := fun h => (List.cons.inj h).2
  unfold execute Line.word?
  rcases hop : line.operation with _ | op
  · exact hkept (hlabel false)
  · cases op with
    | directive word args =>
      obtain ⟨_, _, h⟩ := asm.directive_footprint word
      exact hkept (by rw [h]; rfl)
    | assign word e =>
      exact hkept ((asm.state.differs_assign line.label word e).optionStack (by decide))
    | keyword word args =>
      have hraw := hline word args hop
      dsimp only [withKeyword]
      cases hk : Keyword.ofWord? word.text with
      | none => rfl
      | some keyword =>
        rw [hk] at hraw
        dsimp only
        rw [← State.savedAfter_congr (hlabel keyword.namesLabel), Option.filter_some]
        split
        · exact savedOptions_keywordBody _ hraw _ word args
        · rfl
    | options word args =>
      dsimp only [withKeyword]
      cases hk : Keyword.ofWord? word.text with
      | none => rfl
      | some keyword =>
        dsimp only
        rw [← State.savedAfter_congr (hlabel keyword.namesLabel), Option.filter_some]
        split
        · exact savedOptions_optionBody _ keyword args
        · rfl
    | opcode word args =>
      obtain ⟨_, h⟩ := asm.setting_instruction line.label word args
      have hsetting := congrArg State.optionStack h
      exact hkept hsetting
    | macroCall name args =>
      obtain ⟨_, h⟩ := (asm.mapState (·.defineLabel? line.label)).callMacro_footprint name args
      exact hkept (Eq.trans (by rw [h]; rfl) (hlabel false))

/-- What a line does to the saved options of its own account. -/
theorem savedOptions_visit (v : Visit) :
    (runLine none v.line v.text v.before).state.savedOptions =
      v.before.state.savedAfter v.word? := by
  cases hp : parsed? v.line v.text v.before with
  | none =>
    obtain ⟨diagnostics, hrun⟩ := runLine_of_not_parsed none hp
    unfold Visit.word?
    rw [hp, hrun]
    rfl
  | some found =>
    obtain ⟨parsed, asm⟩ := found
    obtain ⟨diagnostics, hasm⟩ := parsed?_footprint hp
    have hexecute := asm.savedOptions_execute (takesExpressions_of_parsed? hp)
    unfold Visit.word?
    rw [runLine_of_parsed? none hp, hexecute, hp, hasm]
    exact State.savedAfter_congr rfl _

/-! ## Expansions -/

theorem optionStack_expansion? {line : Line} {x : Expansion} (h : expansion? line asm = some x) :
    x.opened.state.optionStack = asm.state.optionStack ∧
      ∀ a, (x.close a).state.optionStack = a.state.optionStack := by
  obtain ⟨asm', hlabel, henters⟩ := asm.expansion?_enters h
  obtain ⟨_, _, _, _, _, _, _, hopened⟩ := henters.opened
  constructor
  · rw [hopened]
    rcases hlabel with rfl | rfl
    · rfl
    · exact asm.optionStack_labelled false line.label
  · intro a
    obtain ⟨_, _, _, hclosed⟩ := henters.closed a
    rw [hclosed]
    rfl

/-- An expansion leaves the stack of options alone as it begins and as it ends. -/
theorem optionStack_expansionOf? {line : Nat} {text : String} {x : Expansion}
    (hx : expansionOf? line text asm = some x) :
    x.opened.state.optionStack = asm.state.optionStack ∧
      ∀ a, (x.close a).state.optionStack = a.state.optionStack := by
  obtain ⟨⟨parsed, asm'⟩, hp, hx⟩ := Option.bind_eq_some_iff.1 hx
  obtain ⟨diagnostics, hasm⟩ := parsed?_footprint hp
  obtain ⟨hopen, hclose⟩ := asm'.optionStack_expansion? hx
  refine ⟨hopen.trans ?_, hclose⟩
  rw [hasm]
  rfl

end Assembler

end Sm83Asm
