import Sm83Asm.Proofs.Execute.Inside
import Sm83Asm.Proofs.Line.Passed

set_option autoImplicit false

/-!
# Runs inside conditional blocks

A line that leaves the conditional blocks around it alone, at every moment of what it expands to,
does the same inside them and outside of them.

Main statement: `runner_withBlocks`.
-/

namespace Sm83Asm

theorem State.passOver?_inside (st : State) {outer : List Conditional}
    (ho : outer.all (·.condition) = true) (tokens : List Token)
    (h : st.conditionals ≠ [] ∨ st.macroDefs ≠ [] ∨ st.repeats ≠ [] ∨
      ∀ word, findKeyword? blockWords tokens ≠ some (.elseIf, word)) :
    (st.inside outer).passOver? tokens = st.passOver? tokens := by
  unfold State.passOver?
  simp only [inside_macroDefs, inside_repeats, st.conditionsTrue_inside ho]
  split
  · rfl
  · split
    · rfl
    · rename_i hm
      split
      · rfl
      · rename_i hr
        split
        · rfl
        · rfl
        · rename_i word hfound
          have hc : st.conditionals ≠ [] := by
            rcases h with h | h | h | h
            · exact h
            · exact absurd h (by simpa using hm)
            · exact absurd h (by simpa using hr)
            · exact absurd hfound (h word)
          have hhead : (st.inside outer).conditionals.head? = st.conditionals.head? := by
            obtain ⟨top, rest, htop⟩ := List.exists_cons_of_ne_nil hc
            rw [inside_conditionals, htop]
            rfl
          rw [st.outerConditionsTrue_inside ho hc, hhead]
        · rfl

namespace Assembler

/-! ## Lines that touch a block around them -/

/-- A keyword that closes or turns a live block leaves the block dead or takes it away. -/
theorem turned_keywordBody (asm : Assembler) (next : Option LineRunner) {keyword : Keyword}
    (hk : keyword.turnsBlock = true) (label : Option LabelDef) (word : Token) (args : List Expr)
    {outer : List Conditional} (hc : asm.state.conditionals = ⟨true, true⟩ :: outer) :
    (asm.keywordBody next keyword label word args).state.conditionals = ⟨false, true⟩ :: outer ∨
      (asm.keywordBody next keyword label word args).state.conditionals = outer := by
  cases keyword with
  | elseIf =>
    refine Or.inl ?_
    show (asm.state.nextIf word args).conditionals = _
    simp [State.nextIf, hc]
  | elseAll =>
    refine Or.inl ?_
    show (asm.state.lastIf word).conditionals = _
    simp [State.lastIf, hc]
  | endIf =>
    refine Or.inr ?_
    show (asm.state.endIf word).conditionals = _
    simp [State.endIf, hc]
  | _ => exact absurd hk (by decide)

theorem not_suffix_of_turned {conditionals outer : List Conditional}
    (h : conditionals = ⟨false, true⟩ :: outer ∨ conditionals = outer) :
    ¬ ⟨true, true⟩ :: outer <:+ conditionals := by
  rcases h with rfl | rfl
  · intro hs
    have heq := hs.eq_of_length rfl
    simp at heq
  · intro hs
    have hle := hs.length_le
    rw [List.length_cons] at hle
    omega

/-- A parsed line that closes or turns a live block does not leave it as it is. -/
theorem not_suffix_execute (asm : Assembler) (next : Option LineRunner) {line : Line}
    (hl : line.turnsBlock = true) {outer : List Conditional}
    (hc : asm.state.conditionals = ⟨true, true⟩ :: outer) :
    ¬ ⟨true, true⟩ :: outer <:+ (execute next line asm).state.conditionals := by
  unfold Line.turnsBlock at hl
  split at hl
  · rename_i word args hop
    obtain ⟨keyword, hk, hturns⟩ := (Option.any_eq_true _ _).1 hl
    rw [Bool.and_eq_true] at hturns
    have hlabel := (asm.conditionals_labelled keyword.namesLabel line.label).trans hc
    unfold execute
    rw [hop]
    dsimp only [withKeyword]
    rw [hk]
    dsimp only
    rw [if_pos hturns.2]
    exact not_suffix_of_turned (turned_keywordBody _ next hturns.1 _ word args hlabel)
  · exact absurd hl (by simp)

/-! ## Lines that do not -/

/-- A line does the same inside live blocks and outside of them. -/
def Oblivious (line : Nat) (text : String) (asm : Assembler) : Prop :=
  ∀ outer : List Conditional, outer.all (·.condition) = true →
    runLine none line text (asm.inside outer) = (runLine none line text asm).inside outer ∧
      expansionOf? line text (asm.inside outer) =
        (expansionOf? line text asm).map (·.inside outer)

theorem statement_inside (line : Nat) (text : String) (st : State) {outer : List Conditional}
    (h : (st.inside outer).passOver? (st.rawTokens line text.toList) =
      st.passOver? (st.rawTokens line text.toList)) :
    statement line text (st.inside outer) =
      ((statement line text st).1, (statement line text st).2.inside outer) := by
  unfold statement
  simp only [State.rawTokens_inside, h, State.tokenize_inside]
  split
  · rfl
  · rfl

/-- A line that is read alike is parsed alike. -/
theorem parsed?_inside {line : Nat} {text : String} {asm : Assembler} {outer : List Conditional}
    (h : (asm.state.inside outer).passOver? (asm.state.rawTokens line text.toList) =
      asm.state.passOver? (asm.state.rawTokens line text.toList)) :
    parsed? line text (asm.inside outer) =
      (parsed? line text asm).map fun p => (p.1, p.2.inside outer) := by
  have hst : statement line text { (asm.inside outer).state with line } = _ :=
    statement_inside line text { asm.state with line } h
  unfold parsed?
  rw [hst]
  rcases statement line text { asm.state with line } with ⟨parsed | start | stop, st⟩
  · rfl
  · rfl
  · rfl

/-- A line that is read alike does the same, unless it is parsed and touches a block. -/
theorem oblivious_of_passOver? {line : Nat} {text : String} {asm : Assembler}
    (hpass : ∀ outer : List Conditional, outer.all (·.condition) = true →
      (asm.state.inside outer).passOver? (asm.state.rawTokens line text.toList) =
        asm.state.passOver? (asm.state.rawTokens line text.toList))
    (hturns : ∀ parsed asm', parsed? line text asm = some (parsed, asm') →
      asm'.state.conditionals ≠ [] ∨ parsed.turnsBlock = false) :
    Oblivious line text asm := by
  intro outer ho
  have hparsed := parsed?_inside (hpass outer ho)
  unfold expansionOf?
  rw [hparsed]
  cases hp : parsed? line text asm with
  | some p =>
    rw [hp] at hparsed
    rw [runLine_of_parsed? none hp, runLine_of_parsed? none hparsed]
    exact ⟨execute_inside p.2 ho p.1 (hturns p.1 p.2 hp), expansion?_inside p.2 p.1⟩
  | none =>
    have hst : statement line text { (asm.inside outer).state with line } = _ :=
      statement_inside line text { asm.state with line } (hpass outer ho)
    rw [hp] at hparsed
    refine ⟨?_, rfl⟩
    rw [runLine_eq_of_not_parsed none hp, runLine_eq_of_not_parsed none hparsed, hst]
    rfl

/-- Inside live blocks of which the innermost was taken, a line does what it does outside, or it
touches that block. -/
theorem oblivious_or_touches (line : Nat) (text : String) (asm : Assembler)
    {outer : List Conditional} (ho : outer.all (·.condition) = true) :
    Oblivious line text asm ∨ ∀ next,
      ¬ ⟨true, true⟩ :: outer <:+
        (runLine next line text (asm.inside (⟨true, true⟩ :: outer))).state.conditionals := by
  have hlive : (⟨true, true⟩ :: outer : List Conditional).all (·.condition) = true := ho
  by_cases hread : asm.state.conditionals ≠ [] ∨ asm.state.macroDefs ≠ [] ∨
      asm.state.repeats ≠ [] ∨ ∀ word,
        findKeyword? blockWords (asm.state.rawTokens line text.toList) ≠ some (.elseIf, word)
  · have hpass : ∀ outer' : List Conditional, outer'.all (·.condition) = true → _ :=
      fun outer' ho' => asm.state.passOver?_inside ho' _ hread
    by_cases hturns : ∀ parsed asm', parsed? line text asm = some (parsed, asm') →
        asm'.state.conditionals ≠ [] ∨ parsed.turnsBlock = false
    · exact Or.inl (oblivious_of_passOver? hpass hturns)
    · simp only [Classical.not_forall, not_or, ne_eq, Classical.not_not,
        Bool.not_eq_false] at hturns
      obtain ⟨parsed, asm', hp, hc, hturns⟩ := hturns
      have hparsed := parsed?_inside (hpass _ hlive)
      rw [hp] at hparsed
      refine Or.inr fun next => ?_
      rw [runLine_of_parsed? next hparsed]
      refine not_suffix_execute _ next hturns ?_
      rw [state_inside, State.inside_conditionals, hc]
      rfl
  · -- The next branch of a block is not parsed where the innermost block was taken.
    simp only [not_or, Classical.not_forall, ne_eq, Classical.not_not] at hread
    obtain ⟨hc, hm, hr, word, hword⟩ := hread
    refine Or.inr fun next => ?_
    have hbase : (asm.inside (⟨true, true⟩ :: outer)).state.conditionals =
        ⟨true, true⟩ :: outer := by
      rw [state_inside, State.inside_conditionals, hc]
      rfl
    have hpass := (asm.inside (⟨true, true⟩ :: outer)).state.passOver?_of_plain hm hr line
      text.toList
    have hclosed : (asm.inside (⟨true, true⟩ :: outer)).state.branchOpen = false := by
      rw [State.branchOpen, hbase]
      exact Bool.and_false _
    rw [state_inside, State.rawTokens_inside, hword, ← state_inside, hclosed] at hpass
    rw [runLine_of_bare next hpass (findKeyword?_eq_some hword).1 rfl]
    exact not_suffix_of_turned (turned_keywordBody _ next rfl none word [] hbase)

/-! ## Runs -/

/-- A runner does the same inside live blocks and outside of them, as long as the history tells
that some of them are left alone. -/
def Undisturbed (outer : List Conditional) (run : LineRunner) (past : LineHistory) : Prop :=
  ∀ line text asm,
    (∀ m ∈ past line text (asm.inside outer), outer <:+ m.asm.state.conditionals) →
      ∀ outer' : List Conditional, outer'.all (·.condition) = true →
        run line text (asm.inside outer') = (run line text asm).inside outer'

section Runs

variable {outer : List Conditional} (ho : outer.all (·.condition) = true) {run : LineRunner}
  {past : LineHistory}

include ho

theorem runNumbered_inside (hrun : Undisturbed outer run past) (lines : List String) (line : Nat)
    (asm : Assembler)
    (h : ∀ m ∈ numberedHistory run past line lines (asm.inside outer),
      outer <:+ m.asm.state.conditionals)
    {outer' : List Conditional} (ho' : outer'.all (·.condition) = true) :
    runNumbered run line lines (asm.inside outer') =
      (runNumbered run line lines asm).inside outer' := by
  induction lines generalizing line asm with
  | nil => rfl
  | cons text lines ih =>
    rw [numberedHistory, List.forall_mem_append] at h
    have hfirst := hrun line text asm h.1
    rw [hfirst outer ho] at h
    simp only [runNumbered, hfirst outer' ho']
    exact ih _ _ h.2

theorem runLines_inside (hrun : Undisturbed outer run past) (file : String) (start stop : Nat)
    (asm : Assembler)
    (h : ∀ m ∈ linesHistory run past file start stop (asm.inside outer),
      outer <:+ m.asm.state.conditionals)
    {outer' : List Conditional} (ho' : outer'.all (·.condition) = true) :
    runLines run file start stop (asm.inside outer') =
      (runLines run file start stop asm).inside outer' := by
  unfold linesHistory at h
  rw [sources_inside] at h
  cases hs : asm.sources.get? file with
  | none =>
    have hs' : (asm.inside outer').sources.get? file = none := hs
    rw [runLines_of_none run start stop hs, runLines_of_none run start stop hs']
    rfl
  | some lines =>
    have hs' : (asm.inside outer').sources.get? file = some lines := hs
    rw [hs] at h
    rw [runLines_of_some run start stop hs, runLines_of_some run start stop hs']
    have hlines := runNumbered_inside ho hrun ((lines.drop start).take (stop - start)) (start + 1)
      (asm.enter file) h ho'
    have henter : (asm.inside outer').enter file = (asm.enter file).inside outer' := rfl
    rw [henter, hlines]
    rfl

theorem runRepeatedly_inside (hrun : Undisturbed outer run past) (file : String)
    (start stop count : Nat) (asm : Assembler)
    (h : ∀ m ∈ repeatedHistory run past file start stop count (asm.inside outer),
      outer <:+ m.asm.state.conditionals)
    {outer' : List Conditional} (ho' : outer'.all (·.condition) = true) :
    runRepeatedly run file start stop count (asm.inside outer') =
      (runRepeatedly run file start stop count asm).inside outer' := by
  induction count generalizing asm with
  | zero => rfl
  | succ count ih =>
    rw [repeatedHistory, List.forall_mem_append] at h
    rw [runLines_inside ho hrun file start stop asm h.1 ho] at h
    rw [runRepeatedly, runRepeatedly, runLines_inside ho hrun file start stop asm h.1 ho']
    exact ih _ h.2

end Runs

/-- The last moment of a line is the one behind it. -/
theorem mem_history_after (levels line : Nat) (text : String) (asm : Assembler) :
    (⟨⟨levels, line, text, asm⟩, true⟩ : Moment) ∈ history levels line text asm := by
  cases levels with
  | zero => simp [history, Visit.around]
  | succ levels => simp [history, Visit.around]

/-- A line that leaves the live blocks around it alone, of which the innermost was taken, does the
same inside them and outside of them. -/
theorem undisturbed_runner {outer : List Conditional} (ho : outer.all (·.condition) = true)
    (levels : Nat) :
    Undisturbed (⟨true, true⟩ :: outer) (runner levels) (history levels) := by
  have hlive : (⟨true, true⟩ :: outer : List Conditional).all (·.condition) = true := ho
  induction levels with
  | zero =>
    intro line text asm h outer' ho'
    rcases oblivious_or_touches line text asm ho with hsame | htouch
    · exact (hsame outer' ho').1
    · exact absurd (h _ (mem_history_after 0 line text _)) (htouch none)
  | succ levels ih =>
    intro line text asm h outer' ho'
    rcases oblivious_or_touches line text asm ho with hsame | htouch
    · obtain ⟨hplain, hexpansion⟩ := hsame outer' ho'
      rw [runner, runLine_some, runLine_some, hexpansion]
      cases hx : expansionOf? line text asm with
      | none => exact hplain
      | some x =>
        have hinner : ∀ m ∈ (x.inside (⟨true, true⟩ :: outer)).history (runner levels)
            (history levels), ⟨true, true⟩ :: outer <:+ m.asm.state.conditionals := by
          intro m hm
          refine h m ?_
          simp [history, Visit.around, (hsame _ hlive).2, hx, hm]
        have hbody := runRepeatedly_inside hlive ih x.file x.start x.stop x.count x.opened hinner
          ho'
        obtain ⟨⟨parsed, asm'⟩, -, hx'⟩ := Option.bind_eq_some_iff.1 hx
        show x.close (runRepeatedly (runner levels) x.file x.start x.stop x.count
          (x.opened.inside outer')) = _
        rw [hbody, asm'.close_inside hx']
        rfl
    · exact absurd (h _ (mem_history_after (levels + 1) line text _))
        (htouch (some (runner levels)))

/-- The assembler with these conditional blocks around it, in place of its own. -/
def withBlocks (asm : Assembler) (blocks : List Conditional) : Assembler :=
  asm.mapState fun st => { st with conditionals := blocks }

/-- A line in a live branch that leaves the blocks around it alone, and closes its own, does the
same within any other live blocks. -/
theorem runner_withBlocks {levels line : Nat} {text : String} {asm : Assembler}
    {outer : List Conditional} (hc : asm.state.conditionals = ⟨true, true⟩ :: outer)
    (ho : outer.all (·.condition) = true)
    (hapart : ∀ m ∈ history levels line text asm,
      asm.state.conditionals <:+ m.asm.state.conditionals)
    (hclosed : (runner levels line text asm).state.conditionals = asm.state.conditionals)
    {blocks : List Conditional} (hb : blocks.all (·.condition) = true) :
    runner levels line text (asm.withBlocks blocks) =
      (runner levels line text asm).withBlocks blocks := by
  have hasm : (asm.withBlocks []).inside (⟨true, true⟩ :: outer) = asm := by
    rw [← hc]
    rfl
  rw [hc, ← hasm] at hapart
  have hsame := undisturbed_runner ho levels line text (asm.withBlocks []) hapart
  have hthere := hsame (⟨true, true⟩ :: outer) ho
  rw [hasm] at hthere
  -- The line on its own ends without blocks, as it closes those that it opens.
  have hnone : (runner levels line text (asm.withBlocks [])).state.conditionals = [] := by
    rw [hthere, hc] at hclosed
    exact List.append_left_eq_self.1 hclosed
  have hhere : runner levels line text (asm.withBlocks blocks) = _ := hsame blocks hb
  rw [hhere, hthere, inside, mapState, State.inside, hnone]
  rfl

end Assembler

end Sm83Asm
