import Sm83Asm.Proofs.Execute.Gate
import Sm83Asm.Proofs.Line.Calls
import Sm83Asm.Proofs.Line.Passed
import Sm83Asm.Proofs.Token.Gate

set_option autoImplicit false

/-!
# Runs behind the gate of the extensions

Nothing but the words of the extensions and the counter of the expansions depends on whether the
extensions are on. Two runs of the same sources that start with different settings stay alike line
by line, however the setting is switched on the way, and so they have the same result.

Main statement: `finish_gated`.
-/

namespace Sm83Asm

namespace Assembler

/-! ## Lines that use no extension -/

/-- The state in which a line is read. -/
def Visit.reading (v : Visit) : State := { v.before.state with line := v.line }

/-- What is cut off a line: as it is written and, unless it is passed over, once more with text
replaced in it. -/
def Visit.cuts (v : Visit) : List Cut :=
  let st := v.reading
  let cs := v.text.toList
  st.rawCuts v.line cs ++
    if (st.passOver? (st.rawTokens v.line cs)).isSome then []
    else st.cutsWithin v.line st.config.maxSubstitutions cs

/-- The names that a line looks up itself, from cutting it to carrying it out. -/
def Visit.lookups (v : Visit) : List String :=
  v.cuts.flatMap Cut.lookups ++
    match parsed? v.line v.text v.before with
    | some (parsed, asm) => parsed.lookups asm
    | none => []

/-- A line off which no word of the extensions is cut, and that does not look up the counter of the
expansions. -/
structure Visit.Plain (v : Visit) : Prop where
  words : ∀ cut ∈ v.cuts, Text.upper cut.token.text ∉ extensionWords
  names : counterName ∉ v.lookups

instance : DecidablePred Visit.Plain := fun v =>
  decidable_of_iff ((∀ cut ∈ v.cuts, Text.upper cut.token.text ∉ extensionWords) ∧
    counterName ∉ v.lookups) ⟨fun h => ⟨h.1, h.2⟩, fun h => ⟨h.words, h.names⟩⟩

namespace Visit.Plain

variable {v : Visit} (h : v.Plain)

include h

theorem isPlain_of_mem_cuts : ∀ cut ∈ v.cuts, cut.IsPlain := by
  intro cut hcut
  refine ⟨h.words cut hcut, ?_⟩
  intro hname
  exact h.names (List.mem_append_left _ (List.mem_flatMap.2 ⟨cut, hcut, hname⟩))

theorem isPlain_of_mem_rawCuts :
    ∀ cut ∈ v.reading.rawCuts v.line v.text.toList, cut.IsPlain := fun cut hcut =>
  h.isPlain_of_mem_cuts cut (List.mem_append_left _ hcut)

theorem isPlain_of_mem_cutsWithin
    (hpass : v.reading.passOver? (v.reading.rawTokens v.line v.text.toList) = none) :
    ∀ cut ∈ v.reading.cutsWithin v.line v.reading.config.maxSubstitutions v.text.toList,
      cut.IsPlain := by
  intro cut hcut
  refine h.isPlain_of_mem_cuts cut (List.mem_append_right _ ?_)
  rwa [hpass, Option.isSome_none, if_neg (by simp)]

/-- The line is read alike with every setting. -/
theorem statement_gated (c x : Bool) :
    statement v.line v.text (v.reading.gated c x) =
      ((statement v.line v.text v.reading).1,
        (statement v.line v.text v.reading).2.gated c x) := by
  have hraw := State.rawTokens_gated c x h.isPlain_of_mem_rawCuts
  have hpassOver : (v.reading.gated c x).passOver? = v.reading.passOver? := rfl
  unfold statement
  simp only [hraw, hpassOver]
  cases hpass : v.reading.passOver? (v.reading.rawTokens v.line v.text.toList) with
  | some passed => rfl
  | none =>
    have htokens : (v.reading.gated c x).tokenize v.line v.text.toList =
        v.reading.tokenize v.line v.text.toList :=
      State.tokensWithin_gated c x _ (h.isPlain_of_mem_cutsWithin hpass)
    simp only [htokens]
    rfl

/-- What is parsed calls only functions whose names were cut off the line. -/
theorem isPlain_of_parsed? {parsed : Line} {asm : Assembler}
    (hparsed : parsed? v.line v.text v.before = some (parsed, asm)) : parsed.IsPlain := by
  obtain ⟨st, hst, -⟩ := of_parsed? hparsed
  intro op hop t ht
  rcases statement_cases hst with hpass | ⟨hpass, hline⟩
  · -- A keyword of a line that is passed over stands alone.
    obtain ⟨start, word, keyword, -, -, rfl⟩ := State.bare_of_passOver? hpass
    obtain rfl := Option.some.inj hop
    exact absurd ht (by simp [Operation.operands, Expr.allCalls])
  · have hmem := calls_parseLine hline op hop t ht
    exact State.isPlain_of_mem_tokensWithin _ (h.isPlain_of_mem_cutsWithin hpass) t hmem

theorem not_mem_lookups_of_parsed? {parsed : Line} {asm : Assembler}
    (hparsed : parsed? v.line v.text v.before = some (parsed, asm)) :
    counterName ∉ parsed.lookups asm := by
  intro hname
  refine h.names (List.mem_append_right _ ?_)
  rwa [hparsed]

/-- The line is parsed alike with every setting. -/
theorem parsed?_gated (c x : Bool) :
    parsed? v.line v.text (v.before.gated c x) =
      (parsed? v.line v.text v.before).map fun p => (p.1, p.2.gated c x) := by
  have hst : statement v.line v.text { (v.before.gated c x).state with line := v.line } = _ :=
    h.statement_gated c x
  unfold parsed?
  rw [hst]
  have hreading : { v.before.state with line := v.line } = v.reading := rfl
  rw [hreading]
  rcases statement v.line v.text v.reading with ⟨parsed | start | stop, st⟩
  · rfl
  · rfl
  · rfl

/-- A line does alike what it does itself. -/
theorem alike_runLine {b : Assembler} (hb : Alike v.before b) :
    Alike (runLine none v.line v.text v.before) (runLine none v.line v.text b) := by
  obtain ⟨c, x, rfl⟩ := hb
  cases hparsed : parsed? v.line v.text v.before with
  | some p =>
    have hgated := h.parsed?_gated c x
    rw [hparsed] at hgated
    rw [runLine_of_parsed? none hparsed, runLine_of_parsed? none hgated]
    exact alike_execute (alike_gated p.2 c x) (h.isPlain_of_parsed? hparsed)
      (h.not_mem_lookups_of_parsed? hparsed)
  | none =>
    have hst : statement v.line v.text { (v.before.gated c x).state with line := v.line } = _ :=
      h.statement_gated c x
    have hgated := h.parsed?_gated c x
    rw [hparsed] at hgated
    rw [runLine_eq_of_not_parsed none hparsed, runLine_eq_of_not_parsed none hgated, hst]
    exact alike_gated _ c x

/-- A line expands alike. -/
theorem rel_expansionOf? {b : Assembler} (hb : Alike v.before b) :
    Option.Rel Expansion.Alike (expansionOf? v.line v.text v.before)
      (expansionOf? v.line v.text b) := by
  obtain ⟨c, x, rfl⟩ := hb
  unfold expansionOf?
  rw [h.parsed?_gated c x]
  cases hparsed : parsed? v.line v.text v.before with
  | none => exact .none
  | some p =>
    exact rel_expansion? (alike_gated p.2 c x) (h.isPlain_of_parsed? hparsed)
      (h.not_mem_lookups_of_parsed? hparsed)

end Visit.Plain

/-! ## Runs -/

/-- A runner does alike what it does from two assemblers that are alike, as long as the lines of
the history from one of them use no extension. -/
def Congruent (run : LineRunner) (past : LineHistory) : Prop :=
  ∀ line text a b, (∀ m ∈ past line text a, m.visit.Plain) → Alike a b →
    Alike (run line text a) (run line text b)

section Ranges

variable {run : LineRunner} {past : LineHistory} (hrun : Congruent run past) {a b : Assembler}

include hrun

theorem alike_runNumbered {line : Nat} {lines : List String}
    (h : ∀ m ∈ numberedHistory run past line lines a, m.visit.Plain) (hab : Alike a b) :
    Alike (runNumbered run line lines a) (runNumbered run line lines b) := by
  induction lines generalizing line a b with
  | nil => exact hab
  | cons text lines ih =>
    rw [numberedHistory, List.forall_mem_append] at h
    exact ih h.2 (hrun line text a b h.1 hab)

theorem alike_runLines {file : String} {start stop : Nat}
    (h : ∀ m ∈ linesHistory run past file start stop a, m.visit.Plain) (hab : Alike a b) :
    Alike (runLines run file start stop a) (runLines run file start stop b) := by
  obtain ⟨c, x, rfl⟩ := hab
  unfold linesHistory at h
  cases hs : a.sources.get? file with
  | none =>
    have hs' : (a.gated c x).sources.get? file = none := hs
    rw [runLines_of_none run start stop hs, runLines_of_none run start stop hs']
    exact alike_fault (alike_gated a c x) _ _
  | some lines =>
    have hs' : (a.gated c x).sources.get? file = some lines := hs
    rw [hs] at h
    rw [runLines_of_some run start stop hs, runLines_of_some run start stop hs']
    have henter : Alike (a.enter file) ((a.gated c x).enter file) := ⟨c, x, rfl⟩
    obtain ⟨c', x', heq⟩ : Alike
        (runNumbered run (start + 1) ((lines.drop start).take (stop - start)) (a.enter file)) _ :=
      alike_runNumbered hrun h henter
    rw [heq]
    exact ⟨c', x', rfl⟩

theorem alike_runRepeatedly {file : String} {start stop count : Nat}
    (h : ∀ m ∈ repeatedHistory run past file start stop count a, m.visit.Plain)
    (hab : Alike a b) :
    Alike (runRepeatedly run file start stop count a)
      (runRepeatedly run file start stop count b) := by
  induction count generalizing a b with
  | zero => exact hab
  | succ count ih =>
    rw [repeatedHistory, List.forall_mem_append] at h
    exact ih h.2 (alike_runLines hrun h.1 hab)

/-- Two expansions that are alike end alike. -/
theorem Expansion.Alike.alike_run {x y : Expansion} (hxy : x.Alike y)
    (h : ∀ m ∈ x.history run past, m.visit.Plain) : Assembler.Alike (x.run run) (y.run run) := by
  have hbody := alike_runRepeatedly hrun h hxy.opened
  unfold Expansion.run
  rw [hxy.file, hxy.start, hxy.stop, hxy.count]
  exact hxy.close hbody

end Ranges

/-- With any number of levels left, lines that use no extension do alike. -/
theorem congruent_runner (levels : Nat) : Congruent (runner levels) (history levels) := by
  induction levels with
  | zero =>
    intro line text a b h hab
    have hplain : Visit.Plain ⟨0, line, text, a⟩ := h ⟨_, false⟩ (by simp [history, Visit.around])
    exact hplain.alike_runLine hab
  | succ levels ih =>
    intro line text a b h hab
    have hplain : Visit.Plain ⟨levels + 1, line, text, a⟩ :=
      h ⟨_, false⟩ (by simp [history, Visit.around])
    have hexpansion := hplain.rel_expansionOf? hab
    rw [runner, runLine_some, runLine_some]
    cases hx : expansionOf? line text a with
    | none =>
      cases hy : expansionOf? line text b with
      | none => exact hplain.alike_runLine hab
      | some y =>
        rw [hx, hy] at hexpansion
        exact absurd hexpansion Option.not_rel_none_some
    | some x =>
      cases hy : expansionOf? line text b with
      | none =>
        rw [hx, hy] at hexpansion
        exact absurd hexpansion Option.not_rel_some_none
      | some y =>
        rw [hx, hy, Option.rel_some_some] at hexpansion
        apply hexpansion.alike_run ih
        intro m hm
        exact h m (by simp [history, Visit.around, hx, hm])

/-! ## Whole runs -/

/-- A text that is carried out as a file. -/
theorem alike_assembleText {a b : Assembler} {name text : String}
    (h : ∀ m ∈ a.textHistory name text, m.visit.Plain) (hab : Alike a b) :
    Alike (a.assembleText name text) (b.assembleText name text) := by
  obtain ⟨c, x, rfl⟩ := hab
  have hfile : Expansion.Alike (ofFile name (a.load name text))
      (ofFile name ((a.gated c x).load name text)) := alike_ofFile (alike_gated _ c x) name
  exact hfile.alike_run (congruent_runner _) h

theorem alike_source {a b : Assembler} {source : Source}
    (h : ∀ m ∈ source.history a, m.visit.Plain) (hab : Alike a b) :
    Alike (source.run a) (source.run b) := by
  cases source with
  | line number content =>
    obtain ⟨c, x, rfl⟩ := hab
    exact congruent_runner _ number content a _ h (alike_gated a c x)
  | text name content => exact alike_assembleText h hab
  | file path =>
    obtain ⟨c, x, rfl⟩ := hab
    simp only [Source.history] at h
    simp only [Source.run, assembleFile?, files_gated]
    rcases hr : a.files.retrieve path "" with ⟨_ | ⟨name, contents⟩, files⟩
    · exact alike_gated a c x
    · rw [hr] at h
      exact alike_assembleText h (alike_gated _ c x)

theorem alike_runAll {a b : Assembler} {sources : List Source}
    (h : ∀ m ∈ a.historyOf sources, m.visit.Plain) (hab : Alike a b) :
    Alike (a.runAll sources) (b.runAll sources) := by
  induction sources generalizing a b with
  | nil => exact hab
  | cons source rest ih =>
    rw [historyOf, List.forall_mem_append] at h
    exact ih h.2 (alike_source h.1 hab)

/-- The result of an assembly does not tell the setting. -/
theorem Alike.finish_eq {a b : Assembler} (h : Alike a b) : b.finish = a.finish := by
  obtain ⟨c, x, rfl⟩ := h
  have hfinal : finalState (a.state.gated c x) = (finalState a.state).gated c x := by
    have hreports : ({ (a.state.gated c x).record (finalReports (a.state.gated c x)) with
          pendingExports := [] } : State) =
        ({ a.state.record (finalReports a.state) with pendingExports := [] } : State).gated c x :=
      rfl
    unfold finalState
    rw [hreports, State.closeLabel_gated]
    rfl
  unfold finish
  rw [state_gated, hfinal]
  rfl

/-- Whether the extensions are on, and whether files begin with them, makes no difference to the
result of a run in which no word of the extensions is ever cut off a line and the counter of the
expansions is never looked up. -/
theorem finish_gated (a : Assembler) (sources : List Source)
    (h : ∀ m ∈ a.historyOf sources, m.visit.Plain) (compatibility extensions : Bool) :
    ((a.gated compatibility extensions).runAll sources).finish = (a.runAll sources).finish :=
  (alike_runAll h (alike_gated a compatibility extensions)).finish_eq

/-- A source that turns the extensions off and reads another file. -/
def switchingSource : Source :=
  .text "a" "#RGBDS\nn EQU 3\nm: MACRO\n printt \"\x7bn\x7d\"\n ENDM\n INCLUDE \"b\"\n"

/-- The assembler that finds the other file, which turns the extensions on and calls a macro. -/
def switchingStart : Assembler :=
  new {} ((FileStore.memory {}).add "b" ("#EXTENSIONS\n m".toUTF8.data))

theorem finish_gated_switchingSource :
    (∀ m ∈ switchingStart.historyOf [switchingSource], m.visit.Plain) ∧
      ((switchingStart.gated true false).runAll [switchingSource]).finish =
        (switchingStart.runAll [switchingSource]).finish ∧
      (switchingStart.runAll [switchingSource]).finish.printed = "$3" := by
  have hplain : ∀ m ∈ switchingStart.historyOf [switchingSource], m.visit.Plain := by
    decide +kernel
  exact ⟨hplain, finish_gated _ _ hplain true false, by decide +kernel⟩

end Assembler

end Sm83Asm
