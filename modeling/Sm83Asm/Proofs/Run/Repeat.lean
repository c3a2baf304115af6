import Sm83Asm.Proofs.Line.Passed
import Sm83Asm.Proofs.Run.Depth

set_option autoImplicit false

/-!
# Repeats are unrolled

The lines of a repeat are recorded as they are met: only the words that open and close repeats are
looked at, until the end of the outermost one. Then the lines in between are carried out as often
as the repeat says, one level deeper.

Main statement: carrying out the lines of a file from a repeat to its matching end is evaluating
the count, giving a number to the repeat, carrying out the lines in between that many times and
taking the number back (`runNumbered_rept`).
-/

namespace Sm83Asm

/-- How many repeats are open behind some lines as they are written, when there are some in front
of them; there is no answer when a line closes one that is not open. -/
def State.nesting? (st : State) : Nat → List String → Nat → Option Nat
  | _, [], depth => some depth
  | line, text :: rest, depth =>
    match st.writtenKeyword? [.rept, .endr] line text with
    | some .rept => st.nesting? (line + 1) rest (depth + 1)
    | some .endr =>
      match depth with
      | 0 => none
      | depth + 1 => st.nesting? (line + 1) rest depth
    | _ => st.nesting? (line + 1) rest depth

theorem State.nesting?_congr {st st' : State} (h : st'.cursor = st.cursor) (line : Nat)
    (texts : List String) (depth : Nat) :
    st'.nesting? line texts depth = st.nesting? line texts depth := by
  induction texts generalizing line depth with
  | nil => rfl
  | cons text rest ih =>
    simp only [nesting?, writtenKeyword?_congr h, ih]

theorem State.nesting?_append (st : State) (line : Nat) (front back : List String) (depth : Nat) :
    st.nesting? line (front ++ back) depth =
      (st.nesting? line front depth).bind (st.nesting? (line + front.length) back) := by
  induction front generalizing line depth with
  | nil => rfl
  | cons text rest ih =>
    have hlength : line + (text :: rest).length = line + 1 + rest.length := by
      simp only [List.length_cons]
      omega
    simp only [List.cons_append, State.nesting?, hlength]
    split
    · exact ih _ _
    · split
      · rfl
      · exact ih _ _
    · exact ih _ _

namespace Assembler

/-- Sets the repeats that are open, and moves to a line. -/
def recording (asm : Assembler) (repeats : List Repeat) (line : Nat) : Assembler :=
  asm.mapState fun st => { st with repeats, line }

/-! ## Recording -/

section Recording

variable {asm : Assembler} (hm : asm.state.macroDefs = []) (block : Repeat)

include hm

/-- One line inside a repeat that is open. -/
theorem exists_runLine_recording (next : Option LineRunner) (line : Nat) (text : String)
    {inner : List Repeat} {depth : Nat} (l : Nat)
    (h : asm.state.nesting? line [text] inner.length = some depth) :
    ∃ inner' : List Repeat, inner'.length = depth ∧
      runLine next line text (asm.recording (inner ++ [block]) l) =
        asm.recording (inner' ++ [block]) line := by
  have hr : (asm.recording (inner ++ [block]) l).state.repeats ≠ [] := by
    simp [recording, mapState]
  cases hw : asm.state.writtenKeyword? [.rept, .endr] line text with
  | none =>
    simp only [State.nesting?, hw, Option.some.injEq] at h
    exact ⟨inner, h, runLine_of_repeats _ next hm hr hw⟩
  | some keyword =>
    obtain ⟨hkeyword, word, hrun⟩ :=
      (asm.recording (inner ++ [block]) l).exists_runLine_of_repeats next hm hr hw
    rw [hrun]
    rcases hkeyword with rfl | rfl
    · -- A repeat inside the body is only counted.
      simp only [State.nesting?, hw, Option.some.injEq] at h
      refine ⟨⟨0, line, asm.state.file⟩ :: inner, h, ?_⟩
      cases inner with
      | nil => rfl
      | cons first inner => rfl
    · cases inner with
      | nil => simp [State.nesting?, hw] at h
      | cons first inner =>
        simp only [State.nesting?, hw, List.length_cons, Option.some.injEq] at h
        refine ⟨inner, h, ?_⟩
        cases inner with
        | nil => rfl
        | cons second inner => rfl

/-- Lines inside a repeat that is open. -/
theorem exists_runNumbered_recording (next : Option LineRunner) (line : Nat) (texts : List String)
    (inner : List Repeat) {depth : Nat} (l : Nat)
    (h : asm.state.nesting? line texts inner.length = some depth) :
    ∃ (inner' : List Repeat) (l' : Nat), inner'.length = depth ∧
      runNumbered (runLine next) line texts (asm.recording (inner ++ [block]) l) =
        asm.recording (inner' ++ [block]) l' := by
  induction texts generalizing line inner l with
  | nil => exact ⟨inner, l, by simpa [State.nesting?] using h, rfl⟩
  | cons text texts ih =>
    rw [← List.singleton_append, State.nesting?_append] at h
    obtain ⟨mid, hfirst, hrest⟩ := Option.bind_eq_some_iff.1 h
    obtain ⟨inner', rfl, hline⟩ := exists_runLine_recording hm block next line text l hfirst
    rw [runNumbered, hline]
    exact ih (line + 1) inner' line hrest

end Recording

/-! ## The line that a run starts from -/

/-- A line is carried out alike wherever the run stood before. -/
theorem runner_atLine (levels line : Nat) (text : String) (asm : Assembler) (l : Nat) :
    runner levels line text (asm.atLine l) = runner levels line text asm := by
  cases levels with
  | zero => rfl
  | succ levels => rfl

theorem atLine_runNumbered (levels line : Nat) (texts : List String) (asm : Assembler) (l m : Nat) :
    (runNumbered (runner levels) line texts (asm.atLine l)).atLine m =
      (runNumbered (runner levels) line texts asm).atLine m := by
  cases texts with
  | nil => rfl
  | cons text texts => rw [runNumbered, runNumbered, runner_atLine]

theorem runLines_atLine (levels : Nat) {file : String} (start stop : Nat) {asm : Assembler}
    (h : asm.sources.contains file = true) (l : Nat) :
    runLines (runner levels) file start stop (asm.atLine l) =
      (runLines (runner levels) file start stop asm).atLine l := by
  obtain ⟨lines, hlines⟩ := Option.isSome_iff_exists.1 h
  have hlines' : (asm.atLine l).sources.get? file = some lines := hlines
  rw [runLines_of_some _ start stop hlines, runLines_of_some _ start stop hlines']
  -- The line is set anew at the end, so the one before does not matter.
  have hback : ∀ a : Assembler, a.back (asm.atLine l) = ((a.atLine 0).back asm).atLine l :=
    fun _ => rfl
  have henter : (asm.atLine l).enter file = (asm.enter file).atLine l := rfl
  rw [hback, henter, atLine_runNumbered]
  rfl

/-- Repeating lines of a file that was read. -/
theorem runRepeatedly_atLine (levels : Nat) {file : String} (start stop count : Nat)
    {asm : Assembler} (h : asm.sources.contains file = true) (l : Nat) :
    runRepeatedly (runner levels) file start stop count (asm.atLine l) =
      (runRepeatedly (runner levels) file start stop count asm).atLine l := by
  induction count generalizing asm with
  | zero => rfl
  | succ count ih =>
    have hkept := (balanced_runLines levels file start stop asm).remembers file h
    rw [runRepeatedly, runRepeatedly, runLines_atLine levels start stop h, ih hkept]

/-! ## Unrolling -/

end Assembler

/-- The only argument of an unlabelled line with a keyword. -/
def Line.argument? (line : Line) (keyword : Keyword) : Option (Token × Expr) :=
  match line.label, line.operation with
  | none, some (.keyword word [e]) =>
    if Keyword.ofWord? word.text == some keyword then some (word, e) else none
  | _, _ => none

theorem Line.argument?_eq_some {line : Line} {keyword : Keyword} {word : Token} {e : Expr}
    (h : line.argument? keyword = some (word, e)) :
    line.label = none ∧ line.operation = some (.keyword word [e]) ∧
      Keyword.ofWord? word.text = some keyword := by
  unfold Line.argument? at h
  split at h
  · rename_i hlabel hop
    split at h
    · rename_i hk
      simp only [Option.some.injEq, Prod.mk.injEq] at h
      obtain ⟨rfl, rfl⟩ := h
      exact ⟨hlabel, hop, beq_iff_eq.1 hk⟩
    · exact absurd h (by simp)
  · exact absurd h (by simp)

theorem State.beginRepeat_sole (st : State) (word : Token) (e : Expr) (hr : st.repeats = [])
    (hn : 0 ≤ (st.number e).1) :
    st.beginRepeat word [e] =
      { (st.number e).2 with
        repeats := [⟨(st.number e).1.toInt.toNat, st.line, st.file⟩] } := by
  have hlt : ¬ (st.number e).1 < 0 := Int32.not_lt.2 hn
  unfold State.beginRepeat
  rw [hr, if_pos List.isEmpty_nil]
  dsimp only [State.soleNumber]
  rw [if_neg hlt]
  rfl

namespace Assembler

/-- Reads an unlabelled line with a keyword and one argument, and evaluates the argument. -/
def argument? (keyword : Keyword) (line : Nat) (text : String) (asm : Assembler) :
    Option (Int32 × Assembler) :=
  (parsed? line text asm).bind fun (parsed, asm) =>
    (parsed.argument? keyword).map fun (_, e) =>
      ((asm.state.number e).1, { asm with state := (asm.state.number e).2 })

theorem argument?_footprint {keyword : Keyword} {line : Nat} {text : String}
    {asm evaluated : Assembler} {n : Int32}
    (h : asm.argument? keyword line text = some (n, evaluated)) :
    ∃ random diagnostics,
      evaluated = (asm.atLine line).mapState fun st => { st with random, diagnostics } := by
  obtain ⟨⟨parsed, asm'⟩, hp, hargument⟩ := Option.bind_eq_some_iff.1 h
  obtain ⟨⟨word, e⟩, -, he⟩ := Option.map_eq_some_iff.1 hargument
  simp only [Prod.mk.injEq] at he
  obtain ⟨-, rfl⟩ := he
  obtain ⟨diagnostics, rfl⟩ := parsed?_footprint hp
  obtain ⟨random, diagnostics', hnumber⟩ := State.number_footprint
    ((asm.atLine line).mapState fun st => { st with diagnostics }).state e
  exact ⟨random, diagnostics', by rw [hnumber]; rfl⟩

/-- The line that opens a repeat. -/
theorem runLine_rept (next : Option LineRunner) {line : Nat} {text : String}
    {asm evaluated : Assembler} {n : Int32}
    (h : asm.argument? .rept line text = some (n, evaluated)) (hn : 0 ≤ n)
    (hr : asm.state.repeats = []) :
    runLine next line text asm =
      evaluated.recording [⟨n.toInt.toNat, line, asm.state.file⟩] line := by
  obtain ⟨⟨parsed, asm'⟩, hp, hargument⟩ := Option.bind_eq_some_iff.1 h
  obtain ⟨⟨word, e⟩, hsole, he⟩ := Option.map_eq_some_iff.1 hargument
  simp only [Prod.mk.injEq] at he
  obtain ⟨rfl, rfl⟩ := he
  obtain ⟨hlabel, hop, hk⟩ := Line.argument?_eq_some hsole
  rw [runLine_of_parsed? next hp, execute_keyword next hlabel hop hk rfl]
  obtain ⟨diagnostics, hasm⟩ := parsed?_footprint hp
  have hline : asm'.state.line = line := by rw [hasm]; rfl
  have hfile : asm'.state.file = asm.state.file := by rw [hasm]; rfl
  have hr' : asm'.state.repeats = [] := by rw [hasm]; exact hr
  show asm'.mapState (·.beginRepeat word [e]) = _
  rw [mapState, State.beginRepeat_sole _ word e hr' hn, ← hline, hfile]
  rfl

/-- The line that closes the outermost repeat. -/
theorem runLine_endr (run : LineRunner) {line l : Nat} {text : String} {asm : Assembler}
    (block : Repeat) (hm : asm.state.macroDefs = []) (hr : asm.state.repeats = [])
    (hw : asm.state.writtenKeyword? [.rept, .endr] line text = some .endr) :
    runLine (some run) line text (asm.recording [block] l) =
      (runRepeatedly run block.file block.line (line - 1) block.count
        (asm.atLine line).beginExpansion).endExpansion := by
  have hopen : (asm.recording [block] l).state.repeats ≠ [] := by simp [recording, mapState]
  obtain ⟨-, word, hrun⟩ :=
    (asm.recording [block] l).exists_runLine_of_repeats (some run) hm hopen hw
  have hclosed : asm.atLine line = asm.recording [] line := by
    rw [← hr]
    rfl
  rw [hrun, hclosed]
  rfl

/-- From the line that opens a repeat up to any line of its body, only the repeats that are open
change. -/
theorem exists_runNumbered_begun (next : Option LineRunner) {line : Nat} {rept : String}
    {begun : List String} {asm evaluated : Assembler} {block : Repeat} {depth : Nat}
    (hm : evaluated.state.macroDefs = [])
    (hopen : runLine next line rept asm = evaluated.recording [block] line)
    (hbegun : evaluated.state.nesting? (line + 1) begun 0 = some depth) :
    ∃ (inner : List Repeat) (l : Nat), inner.length = depth ∧
      runNumbered (runLine next) line (rept :: begun) asm =
        evaluated.recording (inner ++ [block]) l := by
  rw [runNumbered, hopen]
  exact exists_runNumbered_recording hm block next (line + 1) begun [] line hbegun

/-- Carrying out the lines of a file from a repeat to its matching end: the count is evaluated, the
repeat gets the next number, the lines in between are carried out that many times, one level
deeper, and the number is taken back. While those lines are recorded, nothing changes but the
repeats that are open and the line. -/
theorem runNumbered_rept {asm evaluated : Assembler} {file rept endr : String}
    {front body back : List String} {depth : Nat} {n : Int32}
    (hfile : asm.sources.get? file = some (front ++ rept :: body ++ endr :: back))
    (hm : asm.state.macroDefs = []) (hr : asm.state.repeats = [])
    (hdepth : depth < asm.state.config.maxDepth)
    (hrept : (asm.enter file).argument? .rept (front.length + 1) rept = some (n, evaluated))
    (hn : 0 ≤ n)
    (hbody : asm.state.nesting? (front.length + 2) body 0 = some 0)
    (hendr : asm.state.writtenKeyword? [.rept, .endr] (front.length + 2 + body.length) endr =
      some .endr) :
    (runNumbered (asm.runnerAt depth) (front.length + 1) (rept :: body ++ [endr])
        (asm.enter file) =
      ((runRepeatedly (asm.runnerAt (depth + 1)) file (front.length + 1)
        (front.length + 1 + body.length) n.toInt.toNat
        evaluated.beginExpansion).endExpansion).atLine (front.length + 2 + body.length)) ∧
    ∀ begun rest, body = begun ++ rest → ∃ repeats line,
      runNumbered (asm.runnerAt depth) (front.length + 1) (rept :: begun) (asm.enter file) =
        evaluated.recording repeats line := by
  obtain ⟨random, diagnostics, hasm⟩ := argument?_footprint hrept
  have hm' : evaluated.state.macroDefs = [] := by rw [hasm]; exact hm
  have hr' : evaluated.state.repeats = [] := by rw [hasm]; exact hr
  have hcursor : asm.state.cursor = evaluated.state.cursor := by rw [hasm]; rfl
  have hloaded : evaluated.beginExpansion.sources.contains file = true := by
    rw [hasm]
    exact Option.isSome_iff_exists.2 ⟨_, hfile⟩
  rw [State.writtenKeyword?_congr hcursor] at hendr
  rw [State.nesting?_congr hcursor] at hbody
  obtain ⟨levels, hlevels⟩ : ∃ levels, asm.state.config.maxDepth - depth = levels + 1 :=
    ⟨asm.state.config.maxDepth - depth - 1, by omega⟩
  have hrun : asm.runnerAt depth = runLine (some (runner levels)) := by
    rw [runnerAt, hlevels]
    rfl
  have hdeeper : asm.runnerAt (depth + 1) = runner levels := by
    rw [runnerAt, show asm.state.config.maxDepth - (depth + 1) = levels by omega]
  rw [hrun, hdeeper]
  have hopen : runLine (some (runner levels)) (front.length + 1) rept (asm.enter file) =
      evaluated.recording [⟨n.toInt.toNat, front.length + 1, file⟩] (front.length + 1) :=
    runLine_rept (some (runner levels)) hrept hn hr
  constructor
  · -- The lines in between are recorded, and leave no repeat open inside of this one; so the end
    -- finds it as the only one and carries them out.
    obtain ⟨inner, l, hinner, hlines⟩ := exists_runNumbered_begun _ hm' hopen hbody
    obtain rfl := List.length_eq_zero_iff.1 hinner
    have hlast : front.length + 1 + (rept :: body).length = front.length + 2 + body.length := by
      simp only [List.length_cons]
      omega
    have hstop : front.length + 2 + body.length - 1 = front.length + 1 + body.length := by omega
    rw [runNumbered_append, hlines, hlast]
    show runLine (some (runner levels)) _ endr (evaluated.recording [_] l) = _
    rw [runLine_endr (runner levels) _ hm' hr' hendr, hstop]
    have hbegin : ∀ l, (evaluated.atLine l).beginExpansion = evaluated.beginExpansion.atLine l :=
      fun _ => rfl
    rw [hbegin, runRepeatedly_atLine levels _ _ _ hloaded]
    rfl
  · rintro begun rest rfl
    rw [State.nesting?_append] at hbody
    obtain ⟨open', hbegun, -⟩ := Option.bind_eq_some_iff.1 hbody
    obtain ⟨inner, l, -, hlines⟩ := exists_runNumbered_begun _ hm' hopen hbegun
    exact ⟨_, l, hlines⟩

/-- The assembler in front of a repeat that holds another one inside a conditional block. -/
def repeatedStart : Assembler :=
  ((new {} (.memory {})).load "a"
    "n = 3\n REPT n - 1\n IF n == 3\n REPT 2\nn = n + 1\n ENDR\n ENDC\n ENDR\n").assembleLine
      1 "n = 3"

theorem runNumbered_rept_repeatedStart : ∃ evaluated,
    (repeatedStart.enter "a").argument? .rept 2 " REPT n - 1" = some (2, evaluated) ∧
      runNumbered (repeatedStart.runnerAt 0) 2
          [" REPT n - 1", " IF n == 3", " REPT 2", "n = n + 1", " ENDR", " ENDC", " ENDR"]
          (repeatedStart.enter "a") =
        ((runRepeatedly (repeatedStart.runnerAt 1) "a" 2 7 2
          evaluated.beginExpansion).endExpansion).atLine 8 := by
  have hfile : repeatedStart.sources.get? "a" = some (["n = 3"] ++ " REPT n - 1" ::
      [" IF n == 3", " REPT 2", "n = n + 1", " ENDR", " ENDC"] ++ " ENDR" :: []) := by
    decide +kernel
  have hcount : ((repeatedStart.enter "a").argument? .rept 2 " REPT n - 1").map Prod.fst =
      some 2 := by
    decide +kernel
  obtain ⟨⟨n, evaluated⟩, hrept, rfl⟩ := Option.map_eq_some_iff.1 hcount
  exact ⟨evaluated, hrept, (runNumbered_rept hfile (by decide +kernel) (by decide +kernel)
    (by decide +kernel) hrept (by decide +kernel) (by decide +kernel) (by decide +kernel)).1⟩

end Assembler

end Sm83Asm
