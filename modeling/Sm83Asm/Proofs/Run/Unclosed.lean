import Mathlib.Algebra.GroupWithZero.Nat
import Sm83Asm.Proofs.Execute.Blocks
import Sm83Asm.Proofs.Layout.UnionHomes
import Sm83Asm.Proofs.Run.AppendOnly

set_option autoImplicit false

/-!
# Blocks that are left open

The end of an assembly reports the blocks that it finds open. This module counts, along whole runs,
the lines that open blocks and the lines that close them, and compares the two with the blocks that
are open.

Main statement: when an assembly ends without an error, conditional blocks, macro definitions and
repeats have been closed as often as they have been opened, and unions too, but for those that are
set aside with a section at the end and those of a section that a `POPS` line leaves
(`blocks_closed_along_run`). Nothing looks at these, so a union that was set aside can stay open
without a report (`union_left_open_without_error`).

The count is additive: what a stretch of a run adds to the height of a stack is the number of its
openers less that of its closers (`Tallies`). The end of a repeat takes its block off before its
body is carried out, which the count does not see.
-/

namespace Sm83Asm

/-! ## Heights of stacks -/

/-- The number of blocks of a kind on the stacks. -/
def Blocks.depth (b : Blocks) : Block → Nat
  | .conditional => b.conditionals.length
  | .macroBody => b.macroDefs.length
  | .repetition => b.repeats.length
  | .union => 0

/-- The number of unions that were set aside with their sections. -/
def State.unionsAside (st : State) : Nat := (st.savedScopes.map (·.unions.length)).sum

/-- The number of open blocks of a kind, those that were set aside included. -/
def State.depth (st : State) : Block → Nat
  | .union => st.unions.length + st.unionsAside
  | block => st.blocks.depth block

theorem State.depth_of_ne (st : State) {block : Block} (hb : block ≠ .union) :
    st.depth block = st.blocks.depth block := by
  cases block with
  | union => exact absurd rfl hb
  | _ => rfl

open Stores Blocks

/-- One for a line that carries out a keyword. -/
def Keyword.tick (keyword : Keyword) (word : Option Keyword) : Nat :=
  if word = some keyword then 1 else 0

theorem Keyword.tick_of_delimits {word : Option Keyword} (hw : word.any Keyword.delimits = false)
    {block : Block} (hb : block ≠ .union) :
    block.opener.tick word = 0 ∧ block.closer.tick word = 0 := by
  have hne : ∀ k : Keyword, k.delimits = true → k.tick word = 0 := by
    intro k hk
    refine if_neg fun h => ?_
    rw [h] at hw
    exact absurd (hk.symm.trans hw) (by simp)
  cases block with
  | conditional => exact ⟨hne _ rfl, hne _ rfl⟩
  | macroBody => exact ⟨hne _ rfl, hne _ rfl⟩
  | repetition => exact ⟨hne _ rfl, hne _ rfl⟩
  | union => exact absurd rfl hb

/-- A step on the stacks, in numbers. -/
theorem Blocks.Step.depth_add {word : Option Keyword} {a b : Blocks} (h : Step word a b)
    {block : Block} (hb : block ≠ .union) :
    b.depth block + block.closer.tick word = a.depth block + block.opener.tick word := by
  cases h with
  | keep hw =>
    obtain ⟨hopen, hclose⟩ := Keyword.tick_of_delimits hw hb
    omega
  | turn hw hc next =>
    obtain ⟨hopen, hclose⟩ := Keyword.tick_of_delimits hw hb
    cases block with
    | conditional =>
      simp only [Blocks.depth, hc, List.length_cons]
      omega
    | union => exact absurd rfl hb
    | _ => simp only [Blocks.depth]; omega
  | beginIf c => cases block <;> rfl
  | endIf hc =>
    cases block with
    | conditional => simp [Blocks.depth, hc, Keyword.tick, Block.closer, Block.opener]
    | union => exact absurd rfl hb
    | _ => rfl
  | beginMacro d => cases block <;> rfl
  | endMacro hm =>
    cases block with
    | macroBody => simp [Blocks.depth, hm, Keyword.tick, Block.closer, Block.opener]
    | union => exact absurd rfl hb
    | _ => rfl
  | beginRepeat r => cases block <;> rfl
  | endRepeat hr =>
    cases block with
    | repetition => simp [Blocks.depth, hr, Keyword.tick, Block.closer, Block.opener]
    | union => exact absurd rfl hb
    | _ => rfl

namespace Assembler

/-! ## Lines that were carried out -/

/-- The lines that came to their ends. -/
def doneVisits (moments : List Moment) : List Visit :=
  (moments.filter (·.done)).map (·.visit)

/-- The number of lines that carried out a keyword. -/
def carriedOut (keyword : Keyword) (lines : List Visit) : Nat :=
  (lines.map fun v => keyword.tick v.word?).sum

/-- The number of open unions in the section that a `POPS` line leaves. -/
def Visit.abandons (v : Visit) : Block → Nat
  | .union => if v.word? = some .pops then v.before.state.unions.length else 0
  | _ => 0

/-- The number of unions that `POPS` lines leave open. -/
def abandoned (block : Block) (lines : List Visit) : Nat := (lines.map (·.abandons block)).sum

/-- Between two states, some lines have opened, closed and abandoned blocks. -/
def Tallies (a : State) (lines : List Visit) (b : State) : Prop :=
  ∀ block, b.depth block + carriedOut block.closer lines + abandoned block lines =
    a.depth block + carriedOut block.opener lines

theorem tallies_nil {a b : State} (h : b.depth = a.depth) : Tallies a [] b := by
  intro block
  rw [h]
  rfl

theorem Tallies.append {a b c : State} {lines more : List Visit} (hab : Tallies a lines b)
    (hbc : Tallies b more c) : Tallies a (lines ++ more) c := by
  intro block
  have h := hab block
  have h' := hbc block
  simp only [carriedOut, abandoned, List.map_append, List.sum_append] at h h' ⊢
  omega

/-- The order in which a line and others are counted does not matter. -/
theorem Tallies.swap {a b : State} {v : Visit} {lines : List Visit}
    (h : Tallies a ([v] ++ lines) b) : Tallies a (lines ++ [v]) b := by
  intro block
  have h' := h block
  simp only [carriedOut, abandoned, List.map_append, List.sum_append] at h' ⊢
  omega

theorem doneVisits_append (ms ns : List Moment) :
    doneVisits (ms ++ ns) = doneVisits ms ++ doneVisits ns := by
  simp only [doneVisits, List.filter_append, List.map_append]

theorem doneVisits_around (v : Visit) (inner : List Moment) :
    doneVisits (v.around inner) = doneVisits inner ++ [v] := by
  simp [doneVisits, Visit.around]

/-! ## Unions -/

/-- The keywords that open and close unions, and those that set them aside with their section. -/
abbrev unionWords : List Keyword := [.union, .endu, .pushs, .pops]

/-- Without the keywords for unions, no union is opened or closed. -/
theorem depth_union_of_changes {word : Option Keyword} {a b : State}
    (hw : ∀ k ∈ unionWords, word ≠ some k)
    (h : Changes word a.stores b.stores) : b.depth .union = a.depth .union := by
  have hunions : b.unions.length = a.unions.length :=
    eq_of_changes (f := (·.unions.length)) (length_unions_of_change hw) h
  have hsaved : b.savedScopes = a.savedScopes :=
    eq_of_changes (savedScopes_of_change fun k hk => hw k (by simp at hk ⊢; tauto)) h
  simp only [State.depth, State.unionsAside, hunions, hsaved]

/-- Without the keywords for unions, a line counts for nothing. -/
theorem ticks_of_not_unionWords {v : Visit} (h : ∀ k ∈ unionWords, v.word? ≠ some k) :
    Keyword.union.tick v.word? = 0 ∧ Keyword.endu.tick v.word? = 0 ∧ v.abandons .union = 0 := by
  have hunion := h .union (by simp)
  have hendu := h .endu (by simp)
  have hpops := h .pops (by simp)
  exact ⟨if_neg hunion, if_neg hendu, if_neg hpops⟩

end Assembler

namespace State

variable (st : State) (word : Token)

theorem depth_beginUnion (hclean : (st.beginUnion word).IsClean) :
    (st.beginUnion word).depth .union = st.depth .union + 1 := by
  unfold beginUnion at hclean ⊢
  cases hs : st.offset? with
  | none =>
    rw [hs] at hclean
    exact absurd hclean (st.not_isClean_fault rfl word)
  | some start =>
    simp only [depth, unionsAside, List.length_cons]
    omega

theorem depth_endUnion (hclean : (st.endUnion word).IsClean) :
    (st.endUnion word).depth .union + 1 = st.depth .union := by
  have hsaved : (st.endUnion word).savedScopes = st.savedScopes :=
    eq_of_changes (savedScopes_of_change (by simp))
      (st.changes_endUnion word (w := some .endu) rfl)
  have hunions := Assembler.unions_endUnion st word
  unfold endUnion at hclean
  cases hc : st.countMember? with
  | none =>
    rw [hc] at hclean
    exact absurd hclean (st.not_isClean_fault rfl word)
  | some counted =>
    obtain ⟨place, body, inner, ho, hu, -⟩ := st.of_countMember? (u := counted.1) hc
    have hsection : st.section? = some body := by
      rw [section?, show st.current = some place from ho.1]
      exact ho.2
    rw [hsection, hu] at hunions
    simp only [depth, unionsAside, hunions, hsaved, hu, Option.isSome_some, if_true, List.tail_cons,
      List.length_cons]
    omega

theorem depth_pushSection : st.pushSection.depth .union = st.depth .union := by
  obtain ⟨openLabel, labels, hclose, -, -⟩ := st.closeLabel_footprint
  unfold pushSection
  rw [hclose]
  simp [depth, unionsAside]

/-- The open unions of the section that is left are gone. -/
theorem depth_popSection (hclean : (st.popSection word).IsClean) :
    (st.popSection word).depth .union + st.unions.length = st.depth .union := by
  obtain ⟨openLabel, labels, hclose, -, -⟩ := st.closeLabel_footprint
  unfold popSection at hclean ⊢
  rw [hclose] at hclean ⊢
  dsimp only at hclean ⊢
  cases hs : st.savedScopes with
  | nil =>
    rw [hs] at hclean
    exact absurd hclean (not_isClean_fault _ rfl word)
  | cons scope outer =>
    simp only [depth, unionsAside, hs, List.map_cons, List.sum_cons]
    omega

theorem IsClean.of_grown {a b : State} (h : b.IsClean) (hab : a.stores.Grown b.stores) :
    a.IsClean :=
  fun d hd => h d ⟨hab.diagnostics.subset hd.val⟩

end State

namespace Assembler

/-- What a line does to the unions of its own account, as long as it leaves no error. -/
theorem depth_union_visit (v : Visit)
    (hclean : (runLine none v.line v.text v.before).state.IsClean) :
    (runLine none v.line v.text v.before).state.depth .union + Keyword.endu.tick v.word? +
        v.abandons .union = v.before.state.depth .union + Keyword.union.tick v.word? := by
  by_cases hword : ∀ k ∈ unionWords, v.word? ≠ some k
  · obtain ⟨hunion, hendu, hpops⟩ := ticks_of_not_unionWords hword
    rw [depth_union_of_changes hword (changes_visit v), hunion, hendu, hpops]
  · push Not at hword
    obtain ⟨k, hk, hw⟩ := hword
    simp only [List.mem_cons, List.not_mem_nil, or_false] at hk
    have hlabel : k.namesLabel = false ∧ k.takesRawText = false := by
      rcases hk with rfl | rfl | rfl | rfl <;> exact ⟨rfl, rfl⟩
    -- The keyword is carried out where no more than a label is new.
    obtain ⟨asm, label, word, args, ⟨labels, hlayout⟩, hrun⟩ :=
      runLine_of_word? hw hlabel.1 hlabel.2
    have hunions : v.before.state.unions = asm.state.unions :=
      (congrArg Layout.unions hlayout).symm
    have hsaved : v.before.state.savedScopes = asm.state.savedScopes :=
      (congrArg Layout.savedScopes hlayout).symm
    have hdepth : v.before.state.depth .union = asm.state.depth .union := by
      simp only [State.depth, State.unionsAside, hunions, hsaved]
    rw [hrun] at hclean ⊢
    simp only [Visit.abandons, Keyword.tick, hw, hdepth, hunions]
    rcases hk with rfl | rfl | rfl | rfl
    · exact asm.state.depth_beginUnion word hclean
    · exact asm.state.depth_endUnion word hclean
    · exact asm.state.depth_pushSection
    · exact asm.state.depth_popSection word hclean

/-! ## Stretches of a run -/

/-- One line and what it does to the height of each stack. -/
theorem tallies_singleton {a b : State} {v : Visit} (hstep : Step v.word? a.blocks b.blocks)
    (hunion : b.depth .union + Keyword.endu.tick v.word? + v.abandons .union =
      a.depth .union + Keyword.union.tick v.word?) : Tallies a [v] b := by
  intro block
  simp only [carriedOut, abandoned, List.map_singleton, List.sum_singleton]
  by_cases hb : block = .union
  · subst hb
    exact hunion
  · have hnone : v.abandons block = 0 := by
      cases block with
      | union => exact absurd rfl hb
      | _ => rfl
    rw [State.depth_of_ne _ hb, State.depth_of_ne _ hb, hnone]
    exact hstep.depth_add hb

theorem tallies_visit (v : Visit) (hclean : (runLine none v.line v.text v.before).state.IsClean) :
    Tallies v.before.state [v] (runLine none v.line v.text v.before).state :=
  tallies_singleton (step_visit v hclean) (depth_union_visit v hclean)

/-- The beginning of an expansion counts as its whole line, since its end does nothing. -/
theorem tallies_opened (v : Visit) {x : Expansion}
    (hx : expansionOf? v.line v.text v.before = some x) :
    Tallies v.before.state [v] x.opened.state := by
  have hword : ∀ k ∈ unionWords, v.word? ≠ some k := by
    intro k hk hw
    have hnone : expansionOf? v.line v.text v.before = none := by
      simp only [List.mem_cons, List.not_mem_nil, or_false] at hk
      rcases hk with rfl | rfl | rfl | rfl <;>
        exact expansionOf?_of_word? hw rfl (by simp) (by simp)
    exact absurd (hnone.symm.trans hx) (by simp)
  obtain ⟨hunion, hendu, hpops⟩ := ticks_of_not_unionWords hword
  apply tallies_singleton (step_opened v hx).1
  rw [depth_union_of_changes (by simp) (changes_expansionOf? hx).1, hunion, hendu, hpops]

/-- A stretch that leaves no error began without one, and its lines account for the blocks. -/
def Accounts (a : Assembler) (moments : List Moment) (b : Assembler) : Prop :=
  b.state.IsClean → a.state.IsClean ∧ Tallies a.state (doneVisits moments) b.state

theorem compositional_accounts : Compositional fun _ a ms b => Accounts a ms b where
  nil _ a hclean := ⟨hclean, tallies_nil rfl⟩
  append hab hbc hclean := by
    -- The second stretch began without an error, so the first one left none.
    obtain ⟨hb, hmore⟩ := hbc hclean
    obtain ⟨ha, hlines⟩ := hab hb
    rw [doneVisits_append]
    exact ⟨ha, hlines.append hmore⟩
  plain v hv hclean := by
    rw [Visit.after_eq_runLine hv] at hclean ⊢
    have hgrown := of_changes Grown.refl Grown.trans grown_of_change (changes_visit v)
    refine ⟨hclean.of_grown hgrown, ?_⟩
    rw [doneVisits_around]
    exact tallies_visit v hclean
  expanded v x n ms b _ hx hafter hb hclean := by
    obtain ⟨hchanges, hclose⟩ := changes_expansionOf? hx
    rw [hafter] at hclean ⊢
    have hdiagnostics : (x.close b).state.diagnostics = b.state.diagnostics :=
      congrArg Stores.diagnostics (hclose b)
    have hcleanb : b.state.IsClean := by
      rw [State.IsClean, hdiagnostics] at hclean
      exact hclean
    obtain ⟨hopened, hinner⟩ := hb hcleanb
    have hgrown := of_changes Grown.refl Grown.trans grown_of_change hchanges
    refine ⟨hopened.of_grown hgrown, ?_⟩
    have hsame : (x.close b).state.depth = b.state.depth := by
      funext block
      by_cases hu : block = .union
      · subst hu
        have hnone : Changes none b.state.stores (x.close b).state.stores := by
          rw [hclose b]
        exact depth_union_of_changes (by simp) hnone
      · rw [State.depth_of_ne _ hu, State.depth_of_ne _ hu, (step_opened v hx).2 b]
    rw [doneVisits_around]
    have hbody := ((tallies_opened v hx).append hinner).append (tallies_nil hsame)
    rw [List.append_nil] at hbody
    exact hbody.swap
  unread _ a file _ hclean := absurd hclean (a.state.not_isClean_fault rfl _)
  range hb hclean := hb hclean
  file hb hclean := hb hclean
  load _ a files name text hclean := ⟨hclean, tallies_nil rfl⟩

/-! ## The end of an assembly -/

/-- Bringing symbols up to date and ending a label adds no diagnostic. -/
theorem diagnostics_finalState (st : State) :
    (finalState st).diagnostics = (st.record (finalReports st)).diagnostics := by
  unfold finalState
  obtain ⟨openLabel, labels, hclose, -, -⟩ :=
    State.closeLabel_footprint { st.record (finalReports st) with pendingExports := [] }
  rw [hclose]
  rfl

/-- An assembly that ends without an error has none before, and finds no block open. -/
theorem isClean_of_finish {asm : Assembler} (h : asm.finish.hasErrors = false) :
    asm.state.IsClean ∧ openBlocks asm.state = [] := by
  have hall : ∀ d ∈ (asm.state.record (finalReports asm.state)).diagnostics,
      d.isError = false := by
    intro d hd
    rw [← diagnostics_finalState] at hd
    have hnone := List.any_eq_false.1 h d hd.val
    simpa using hnone
  constructor
  · intro d hd
    exact hall d (Array.mem_append_left _ hd)
  · -- A block that is open would be reported, and as an error.
    cases hopen : openBlocks asm.state with
    | nil => rfl
    | cons block rest =>
      have herror := hall
        ⟨⟨.evaluation (.unterminated block), none⟩, asm.state.file, asm.state.line⟩
        (by simp [State.record, finalReports, hopen])
      exact absurd herror (by simp [Diagnostic.isError, Cause.severity])

theorem depth_of_openBlocks {st : State} (h : openBlocks st = []) :
    (∀ block : Block, block ≠ .union → st.depth block = 0) ∧ st.unions = [] := by
  simp only [openBlocks, List.append_eq_nil_iff, ite_eq_left_iff, reduceCtorEq, imp_false,
    not_not, List.isEmpty_iff] at h
  obtain ⟨⟨⟨hc, hm⟩, hr⟩, hu⟩ := h
  refine ⟨?_, hu⟩
  intro block hb
  cases block with
  | conditional => exact congrArg List.length hc
  | macroBody => exact congrArg List.length hm
  | repetition => exact congrArg List.length hr
  | union => exact absurd rfl hb

/-- **When an assembly ends without an error**, every kind of block but unions was closed as often
as it was opened. Of the unions, those are missing that are set aside with a section at the end,
and those of sections that `POPS` lines have left. -/
theorem blocks_closed_along_run (config : Config) (files : FileStore) (sources : List Source)
    (h : ((new config files).runAll sources).finish.hasErrors = false) :
    let lines := doneVisits ((new config files).historyOf sources)
    (∀ block : Block, block ≠ .union →
        carriedOut block.opener lines = carriedOut block.closer lines) ∧
      carriedOut .union lines = carriedOut .endu lines + abandoned .union lines +
        ((new config files).runAll sources).state.unionsAside := by
  obtain ⟨hclean, hopen⟩ := isClean_of_finish h
  obtain ⟨hdepth, hunions⟩ := depth_of_openBlocks hopen
  obtain ⟨-, htally⟩ := compositional_accounts.of_sources sources (new config files) hclean
  have hstart : ∀ block, (new config files).state.depth block = 0 := by
    intro block
    cases block <;> rfl
  constructor
  · -- The stack of such a block is empty at both ends, and nothing of it is abandoned.
    intro block hb
    have hblock := htally block
    have hnone : abandoned block (doneVisits ((new config files).historyOf sources)) = 0 := by
      cases block with
      | union => exact absurd rfl hb
      | _ => simp [abandoned, Visit.abandons]
    rw [hdepth block hb, hstart, hnone] at hblock
    omega
  · -- No union is open in the section at the end; those that were set aside may be.
    have hblock := htally .union
    rw [hstart] at hblock
    simp only [State.depth, hunions, List.length_nil, Block.closer, Block.opener] at hblock
    omega

/-- A repeat in a section of its own, while a union is set aside. -/
def closedSource : Source :=
  .text "a" " SECTION \"a\",ROM0\n UNION\n PUSHS\n REPT 2\n ENDR\n POPS\n ENDU\n"

theorem blocks_closed_along_closedSource :
    ((new {} (.memory {})).runAll [closedSource]).finish.hasErrors = false ∧
      let lines := doneVisits ((new {} (.memory {})).historyOf [closedSource])
      carriedOut .rept lines = 1 ∧ carriedOut .endr lines = 1 ∧
        carriedOut .union lines = carriedOut .endu lines + abandoned .union lines +
          ((new {} (.memory {})).runAll [closedSource]).state.unionsAside := by
  obtain ⟨h, hrept⟩ : ((new {} (.memory {})).runAll [closedSource]).finish.hasErrors = false ∧
      carriedOut .rept (doneVisits ((new {} (.memory {})).historyOf [closedSource])) = 1 := by
    decide +kernel
  obtain ⟨hblocks, hunions⟩ := blocks_closed_along_run {} (.memory {}) [closedSource] h
  exact ⟨h, hrept, (hblocks .repetition (by decide)).symm.trans hrept, hunions⟩

/-- A union that is set aside and never gone back to. -/
def asideAtEndSource : Source := .text "a" " SECTION \"a\",ROM0\n UNION\n PUSHS\n"

/-- Openers and closers need not balance when an assembly ends without an error. -/
theorem union_left_open_without_error :
    ¬ ∀ (config : Config) (files : FileStore) (sources : List Source),
      ((new config files).runAll sources).finish.hasErrors = false →
        ∀ block : Block,
          carriedOut block.opener (doneVisits ((new config files).historyOf sources)) =
            carriedOut block.closer (doneVisits ((new config files).historyOf sources)) := by
  intro h
  have hunions := h {} (.memory {}) [asideAtEndSource] (by decide +kernel) .union
  exact absurd hunions (by decide +kernel)

end Assembler

end Sm83Asm
