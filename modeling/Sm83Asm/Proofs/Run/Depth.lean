import Sm83Asm.Proofs.Run.Balance

set_option autoImplicit false

/-!
# Expansion is bounded

A macro may call itself and a file may include itself; only the limit of the configuration stops
them. This module says what a line leads to by rules that know nothing but that limit (`Carries`),
and shows that they always lead to exactly one end. It counts the expansions that are going on at
each moment of a run (`active`), and the numbers that macro calls and repeats are given.

Main statement: `expansion_bounded_and_balanced`.
-/

namespace Sm83Asm.Assembler

open Bearings

/-! ## What a line leads to -/

/-- Something to be carried out. -/
inductive Job where
  | line (number : Nat) (text : String)
  /-- Lines that are numbered from `number` on. -/
  | lines (number : Nat) (texts : List String)
  /-- The lines of a file behind the first `start` up to number `stop`, a number of times. -/
  | range (file : String) (start stop count : Nat)

/-- Carries out a job by a runner for its lines. -/
def Job.run (run : LineRunner) : Job → Assembler → Assembler
  | .line number text => run number text
  | .lines number texts => runNumbered run number texts
  | .range file start stop count => runRepeatedly run file start stop count

/-- What a job leads to when `depth` expansions are going on around it. A line that expands is
refused at the limit of the configuration, and otherwise its lines are carried out one level
deeper; nothing else ends the recursion. -/
inductive Carries : Nat → Job → Assembler → Assembler → Prop
  | plain {depth line : Nat} {text : String} {a : Assembler}
      (h : expansionOf? line text a = none) :
      Carries depth (.line line text) a (runLine none line text a)
  | refused {depth line : Nat} {text : String} {a : Assembler}
      (h : a.state.config.maxDepth ≤ depth) :
      Carries depth (.line line text) a (runLine none line text a)
  | expanded {depth line : Nat} {text : String} {a b : Assembler} {x : Expansion}
      (hd : depth < a.state.config.maxDepth) (hx : expansionOf? line text a = some x)
      (h : Carries (depth + 1) (.range x.file x.start x.stop x.count) x.opened b) :
      Carries depth (.line line text) a (x.close b)
  | nil {depth line : Nat} {a : Assembler} : Carries depth (.lines line []) a a
  | cons {depth line : Nat} {text : String} {texts : List String} {a b c : Assembler}
      (h : Carries depth (.line line text) a b) (hs : Carries depth (.lines (line + 1) texts) b c) :
      Carries depth (.lines line (text :: texts)) a c
  | done {depth start stop : Nat} {file : String} {a : Assembler} :
      Carries depth (.range file start stop 0) a a
  | unread {depth start stop count : Nat} {file : String} {a b : Assembler}
      (hs : a.sources.get? file = none)
      (h : Carries depth (.range file start stop count)
        (a.fault (.sourceUnavailable file) (.start a.state.line)) b) :
      Carries depth (.range file start stop (count + 1)) a b
  | again {depth start stop count : Nat} {file : String} {lines : List String}
      {a b c : Assembler} (hs : a.sources.get? file = some lines)
      (h : Carries depth (.lines (start + 1) ((lines.drop start).take (stop - start)))
        (a.enter file) b)
      (hn : Carries depth (.range file start stop count) (b.back a) c) :
      Carries depth (.range file start stop (count + 1)) a c

/-- The runner with as many levels left as the limit leaves around some expansions. -/
def runnerAt (depth : Nat) (asm : Assembler) : LineRunner :=
  runner (asm.state.config.maxDepth - depth)

/-- The levels that are left depend on the configuration only. -/
theorem runnerAt_congr {a b : Assembler} (h : b.state.config = a.state.config) (depth : Nat) :
    b.runnerAt depth = a.runnerAt depth := by
  rw [runnerAt, runnerAt, h]

theorem config_job (levels : Nat) (job : Job) (a : Assembler) :
    (job.run (runner levels) a).state.config = a.state.config := by
  have hline := compositional_balanced.of_line levels
  cases job with
  | line number text => exact (hline number text a).bearings.config
  | lines number texts =>
    exact (@Compositional.of_numbered _ levels _ (history levels) compositional_balanced hline
      texts number a).bearings.config
  | range file start stop count =>
    exact (@Compositional.of_repeated _ levels _ (history levels) compositional_balanced hline
      file start stop count a).bearings.config

theorem config_opened {line : Nat} {text : String} {a : Assembler} {x : Expansion}
    (hx : expansionOf? line text a = some x) : x.opened.state.config = a.state.config := by
  obtain ⟨close, hopens, -⟩ := a.opens_of_expansionOf? hx
  show x.opened.state.bearings.config = _
  generalize x.opened.state.bearings = opened at hopens
  cases hopens <;> rfl

/-- The rules lead nowhere but to what the runner computes. -/
theorem eq_run_of_carries {depth : Nat} {job : Job} {a b : Assembler}
    (h : Carries depth job a b) : b = job.run (a.runnerAt depth) a := by
  -- By the rules: each says what the runner does at one level, given what it does one level
  -- deeper.
  induction h with
  | @plain depth line text a h =>
    show _ = runner _ line text a
    cases a.state.config.maxDepth - depth with
    | zero => rfl
    | succ levels => rw [runner, runLine_some, h]
  | @refused depth line text a h =>
    show _ = runner _ line text a
    rw [Nat.sub_eq_zero_of_le h]
    rfl
  | @expanded depth line text a b x hd hx h ih =>
    have hlevels : a.state.config.maxDepth - depth = a.state.config.maxDepth - (depth + 1) + 1 := by
      omega
    rw [ih, runnerAt_congr (config_opened hx)]
    show _ = runner _ line text a
    rw [hlevels, runner, runLine_some, hx]
    rfl
  | nil => rfl
  | @cons depth line text texts a b c h hs ih ihs =>
    have hconfig : b.state.config = a.state.config := by
      rw [ih]
      exact config_job _ _ a
    rw [ihs, runnerAt_congr hconfig, ih]
    rfl
  | done => rfl
  | @unread depth start stop count file a b hs h ih =>
    rw [ih]
    show runRepeatedly _ file start stop count _ = runRepeatedly _ file start stop (count + 1) a
    rw [runRepeatedly, runLines_of_none _ start stop hs]
    rfl
  | @again depth start stop count file lines a b c hs h hn ih ihn =>
    have hconfig : b.state.config = a.state.config := by
      rw [ih]
      exact config_job _ _ _
    have hback : (b.back a).state.config = a.state.config := hconfig
    rw [ihn, runnerAt_congr hback, ih]
    show runRepeatedly _ file start stop count _ = runRepeatedly _ file start stop (count + 1) a
    rw [runRepeatedly, runLines_of_some _ start stop hs]
    rfl

section Existence

variable {depth : Nat} {config : Config} {run : LineRunner}

/-- Lines are carried out by the rules if every one of them is. -/
theorem carries_lines
    (hrun : ∀ line text (a : Assembler), a.state.config = config →
      Carries depth (.line line text) a (run line text a) ∧
        (run line text a).state.config = config)
    (texts : List String) (line : Nat) {a : Assembler} (ha : a.state.config = config) :
    Carries depth (.lines line texts) a (runNumbered run line texts a) ∧
      (runNumbered run line texts a).state.config = config := by
  induction texts generalizing line a with
  | nil => exact ⟨.nil, ha⟩
  | cons text texts ih =>
    obtain ⟨hfirst, hconfig⟩ := hrun line text a ha
    obtain ⟨hrest, hend⟩ := ih (line + 1) hconfig
    exact ⟨.cons hfirst hrest, hend⟩

theorem carries_range
    (hrun : ∀ line text (a : Assembler), a.state.config = config →
      Carries depth (.line line text) a (run line text a) ∧
        (run line text a).state.config = config)
    (file : String) (start stop count : Nat) {a : Assembler} (ha : a.state.config = config) :
    Carries depth (.range file start stop count) a
      (runRepeatedly run file start stop count a) := by
  induction count generalizing a with
  | zero => exact .done
  | succ count ih =>
    rw [runRepeatedly]
    cases hs : a.sources.get? file with
    | none =>
      rw [runLines_of_none run start stop hs]
      exact .unread hs (ih ha)
    | some lines =>
      rw [runLines_of_some run start stop hs]
      obtain ⟨hlines, hconfig⟩ := carries_lines hrun ((lines.drop start).take (stop - start))
        (start + 1) (a := a.enter file) ha
      exact .again hs hlines (ih hconfig)

end Existence

/-- What the runner computes is reached by the rules. -/
theorem carries_runner {levels depth : Nat} (line : Nat) (text : String) {a : Assembler}
    (h : levels = a.state.config.maxDepth - depth) :
    Carries depth (.line line text) a (runner levels line text a) := by
  -- The measure is the number of levels left; each expansion takes one of them.
  induction levels generalizing depth line text a with
  | zero => exact .refused (by omega)
  | succ levels ih =>
    rw [runner, runLine_some]
    cases hx : expansionOf? line text a with
    | none => exact .plain hx
    | some x =>
      have hinner : ∀ line text (b : Assembler), b.state.config = a.state.config →
          Carries (depth + 1) (.line line text) b (runner levels line text b) ∧
            (runner levels line text b).state.config = a.state.config := by
        intro line text b hb
        exact ⟨ih line text (by rw [hb]; omega), (config_job levels (.line line text) b).trans hb⟩
      exact .expanded (by omega) hx (carries_range hinner _ _ _ _ (config_opened hx))

/-- Every job is carried out at its depth, by induction over the levels. -/
theorem carries_run (depth : Nat) (job : Job) (a : Assembler) :
    Carries depth job a (job.run (a.runnerAt depth) a) := by
  have hline : ∀ line text (b : Assembler), b.state.config = a.state.config →
      Carries depth (.line line text) b (a.runnerAt depth line text b) ∧
        (a.runnerAt depth line text b).state.config = a.state.config := by
    intro line text b hb
    exact ⟨carries_runner line text (by rw [hb]), (config_job _ (.line line text) b).trans hb⟩
  cases job with
  | line number text => exact (hline number text a rfl).1
  | lines number texts => exact (carries_lines hline texts number rfl).1
  | range file start stop count => exact carries_range hline file start stop count rfl

/-- Every job comes to exactly one end, the one that the runner computes. -/
theorem carries_iff {depth : Nat} {job : Job} {a b : Assembler} :
    Carries depth job a b ↔ b = job.run (a.runnerAt depth) a := by
  constructor
  · exact eq_run_of_carries
  · rintro rfl
    exact carries_run depth job a

/-- What assembling a source leads to. A text is carried out as a file, and nothing is going on
around it. -/
inductive Assembles : Assembler → Source → Assembler → Prop
  | line {number : Nat} {content : String} {a b : Assembler}
      (h : Carries 0 (.line number content) a b) : Assembles a (.line number content) b
  | text {name content : String} {a b : Assembler} {x : Expansion}
      (hx : ofFile name (a.load name content) = x)
      (h : Carries 0 (.range x.file x.start x.stop x.count) x.opened b) :
      Assembles a (.text name content) (x.close b)
  | missing {path : String} {a : Assembler} {files : FileStore}
      (h : a.files.retrieve path "" = (none, files)) : Assembles a (.file path) a
  | file {path name : String} {contents : Bytes} {files : FileStore} {a b : Assembler}
      (hr : a.files.retrieve path "" = (some (name, contents), files))
      (h : Assembles { a with files } (.text name (Text.decode contents.toList)) b) :
      Assembles a (.file path) b

/-- Assembling a source comes to exactly one end. -/
theorem assembles_iff {source : Source} {a b : Assembler} :
    Assembles a source b ↔ b = source.run a := by
  constructor
  · intro h
    induction h with
    | line h => exact eq_run_of_carries h
    | text hx h =>
      subst hx
      rw [eq_run_of_carries h]
      rfl
    | @missing path a files h =>
      show a = (a.assembleFile? path).getD a
      rw [assembleFile?, h]
      rfl
    | @file path name contents files a b hr h ih =>
      rw [ih]
      show _ = (a.assembleFile? path).getD a
      rw [assembleFile?, hr]
      rfl
  · rintro rfl
    -- The other way round: the rule for a source follows how it is assembled.
    have htext : ∀ (a : Assembler) name content,
        Assembles a (.text name content) (a.assembleText name content) := fun a name content =>
      .text rfl (carries_run 0 (.range _ _ _ _) _)
    cases source with
    | line number content => exact .line (carries_run 0 _ a)
    | text name content => exact htext a name content
    | file path =>
      simp only [Source.run, assembleFile?]
      rcases hr : a.files.retrieve path "" with ⟨_ | ⟨name, contents⟩, files⟩
      · exact .missing hr
      · exact .file hr (htext _ name _)

/-! ## Expansions that are going on -/

/-- Whether a line expands. -/
def Visit.expands (v : Visit) : Bool :=
  v.levels != 0 && (expansionOf? v.line v.text v.before).isSome

/-- What a moment adds to the number of expansions that are going on. -/
def Moment.change (m : Moment) : Int :=
  if m.visit.expands then (if m.done then -1 else 1) else 0

/-- The number of expansions that have begun and not ended after some moments. -/
def active : List Moment → Int
  | [] => 0
  | m :: past => m.change + active past

@[simp] theorem active_nil : active [] = 0 := rfl

@[simp] theorem active_cons (m : Moment) (ms : List Moment) :
    active (m :: ms) = m.change + active ms := rfl

/-- Expansions that are active behind two stretches. -/
@[simp] theorem active_append (ms ns : List Moment) :
    active (ms ++ ns) = active ms + active ns := by
  induction ms with
  | nil => rw [List.nil_append, active_nil, Int.zero_add]
  | cons m ms ih => rw [List.cons_append, active_cons, active_cons, ih, Int.add_assoc]

/-- In the history of lines with some levels left: all expansions end, and around each line, before
and after it, as many are going on as levels have been used up. -/
structure Nested (levels : Nat) (ms : List Moment) : Prop where
  ends : active ms = 0
  within : ∀ m ∈ ms, m.visit.levels ≤ levels
  around : ∀ past m rest, ms = past ++ m :: rest →
    active (if m.done then past ++ [m] else past) + m.visit.levels = levels

theorem Nested.append {levels : Nat} {ms ns : List Moment} (hm : Nested levels ms)
    (hn : Nested levels ns) : Nested levels (ms ++ ns) where
  ends := by rw [active_append, hm.ends, hn.ends]; rfl
  within := List.forall_mem_append.2 ⟨hm.within, hn.within⟩
  around past m rest h := by
    rcases List.append_eq_append_iff.1 h with ⟨mid, rfl, hns⟩ | ⟨mid, hms, hmid⟩
    · have hm0 := hm.ends
      rw [← hn.around mid m rest hns]
      split <;> simp [hm0]
    · cases mid with
      | nil =>
        rw [List.append_nil] at hms
        subst hms
        have hm0 := hm.ends
        rw [← hn.around [] m rest hmid.symm]
        split <;> simp [hm0]
      | cons m' mid =>
        obtain ⟨rfl, -⟩ := List.cons.inj hmid
        exact hm.around past m mid hms

/-- A line around moments that are nested one level deeper, if it expands. -/
theorem Nested.visit {levels : Nat} {ms : List Moment} {v : Visit} (h : Nested levels ms)
    (hv : v.levels = levels + if v.expands then 1 else 0) : Nested v.levels (v.around ms) where
  ends := by
    simp only [Visit.around, List.cons_append, active_cons, active_append, active_nil, h.ends,
      Moment.change]
    split <;> simp
  within m hm := by
    simp only [Visit.around, List.cons_append, List.mem_cons, List.mem_append, List.not_mem_nil,
      or_false] at hm
    rcases hm with rfl | hm | rfl
    · exact Nat.le_refl _
    · exact Nat.le_trans (h.within m hm) (by omega)
    · exact Nat.le_refl _
  around past m rest hsplit := by
    simp only [Visit.around, List.cons_append] at hsplit
    cases past with
    | nil =>
      obtain ⟨rfl, -⟩ := List.cons.inj hsplit
      simp
    | cons first past =>
      obtain ⟨rfl, hinner⟩ := List.cons.inj hsplit
      rcases List.eq_nil_or_concat rest with rfl | ⟨rest, last, rfl⟩
      · obtain ⟨rfl, hlast⟩ := List.append_inj' hinner rfl
        obtain rfl := List.head_eq_of_cons_eq hlast
        have hends := h.ends
        simp only [if_true, active_append, active_cons, active_nil, hends, Moment.change,
          List.cons_append]
        split <;> simp
      · -- The moment lies inside, where the line itself is one more that is going on.
        change ms ++ [_] = past ++ m :: rest.concat last at hinner
        rw [List.concat_eq_append, ← List.cons_append, ← List.append_assoc] at hinner
        obtain ⟨rfl, -⟩ := List.append_inj' hinner rfl
        have hm := h.around past m rest rfl
        rw [hv]
        cases hd : m.done <;> cases he : v.expands <;>
          simp [hd, he, Moment.change] at hm ⊢ <;> omega

/-- At every time the expansions that are going on are as many as levels at most. -/
theorem Nested.active_le {levels : Nat} {ms : List Moment} (h : Nested levels ms)
    {past : List Moment} (hp : past <+: ms) : 0 ≤ active past ∧ active past ≤ levels := by
  obtain ⟨rest, rfl⟩ := hp
  rcases List.eq_nil_or_concat past with rfl | ⟨past, m, rfl⟩
  · simp
  · rw [List.concat_eq_append] at h ⊢
    have hm := h.around past m rest (by simp)
    have hle := h.within m (by simp)
    -- Right after the beginning of an expansion one more is going on, and there was a level left.
    have hchange : m.done = false → m.change = 0 ∨ m.change = 1 ∧ 0 < m.visit.levels := by
      intro hd
      by_cases he : m.visit.expands
      · simp only [Visit.expands, Bool.and_eq_true, bne_iff_ne] at he
        exact Or.inr ⟨by simp [Moment.change, Visit.expands, hd, he], Nat.pos_of_ne_zero he.1⟩
      · exact Or.inl (by simp [Moment.change, he])
    cases hd : m.done with
    | true =>
      simp only [hd, if_true] at hm
      omega
    | false =>
      simp only [hd, Bool.false_eq_true, if_false] at hm
      rw [active_append, active_cons, active_nil]
      rcases hchange hd with hc | ⟨hc, hpos⟩ <;> omega

/-- The moments of a run are nested. -/
theorem compositional_nested : Compositional fun n _ ms _ => Nested n ms where
  nil n a := ⟨rfl, by simp, by simp⟩
  append ha hb := ha.append hb
  plain v hv := by
    have hn : v.expands = false := by
      rcases hv with hv | hv <;> simp [Visit.expands, hv]
    have hempty : Nested v.levels [] := ⟨rfl, by simp, by simp⟩
    exact hempty.visit (by simp [hn])
  expanded v x n ms b hn hx hafter hb := by
    have he : v.expands = true := by simp [Visit.expands, hn, hx]
    exact hb.visit (by simp [he, hn])
  unread n a file _ := ⟨rfl, by simp, by simp⟩
  range hb := hb
  file hb := hb
  load n a files name text := ⟨rfl, by simp, by simp⟩

/-- Of a run. -/
theorem Compositional.of_sources {A : Nat → Assembler → List Moment → Assembler → Prop}
    (h : Compositional A) (sources : List Source) (a : Assembler) :
    A a.state.config.maxDepth a (a.historyOf sources) (a.runAll sources) := by
  induction sources generalizing a with
  | nil => exact h.nil _ a
  | cons source rest ih =>
    have hrest := ih (source.run a)
    rw [config_run] at hrest
    exact h.append (h.of_source a source) hrest

/-! ## Numbers of expansions -/

/-- The number that a line gives to its expansion, and that `\@` stands for in it. An inclusion
gives none. -/
def Visit.number? (v : Visit) : Option Nat :=
  if v.levels = 0 then none
  else
    (expansionOf? v.line v.text v.before).bind fun x =>
      if x.opened.state.uniqueIds = v.before.state.uniqueIds then none
      else x.opened.state.uniqueIds.head?

/-- The numbers given in a history, in order of time. -/
def numbers (ms : List Moment) : List Nat :=
  ms.filterMap fun m => if m.done then none else m.visit.number?

/-- The numbers of expansions in two stretches, one after the other. -/
@[simp] theorem numbers_append (ms ns : List Moment) :
    numbers (ms ++ ns) = numbers ms ++ numbers ns :=
  List.filterMap_append ..

/-- A line that expands has its number before those of its expansion. -/
@[simp] theorem numbers_around (v : Visit) (ms : List Moment) :
    numbers (v.around ms) = v.number?.toList ++ numbers ms := by
  simp only [numbers, Visit.around, List.cons_append, List.filterMap_cons, List.filterMap_append]
  cases hv : v.number? <;> simp

/-- An expansion that is given a number is given the next one, and else the count stays. -/
theorem Visit.number?_cases {v : Visit} {x : Expansion} (hn : v.levels ≠ 0)
    (hx : expansionOf? v.line v.text v.before = some x) :
    (v.number? = some (v.before.state.expansions + 1) ∧
        x.opened.state.expansions = v.before.state.expansions + 1) ∨
      (v.number? = none ∧ x.opened.state.expansions = v.before.state.expansions) := by
  obtain ⟨close, hopens, -⟩ := v.before.opens_of_expansionOf? hx
  have hids : x.opened.state.uniqueIds = x.opened.state.bearings.uniqueIds := rfl
  have hcount : x.opened.state.expansions = x.opened.state.bearings.expansions := rfl
  simp only [Visit.number?, hn, if_false, hx, Option.bind_some, hids, hcount]
  generalize x.opened.state.bearings = opened at hopens
  cases hopens with
  | call frame => exact Or.inl ⟨by simp [State.bearings], rfl⟩
  | replay => exact Or.inl ⟨by simp [State.bearings], rfl⟩
  | file extensions => exact Or.inr ⟨by simp [State.bearings], rfl⟩
  | missing => exact Or.inr ⟨by simp [State.bearings], rfl⟩

/-- The end of an expansion does not count back. -/
theorem expansions_close {a : Assembler} {line : Nat} {text : String} {x : Expansion}
    (hx : expansionOf? line text a = some x) (b : Assembler) :
    (x.close b).state.expansions = b.state.expansions := by
  obtain ⟨close, hopens, hclose⟩ := a.opens_of_expansionOf? hx
  refine Eq.trans (congrArg Bearings.expansions (hclose b)) ?_
  generalize x.opened.state.bearings = opened at hopens
  cases hopens <;> rfl

/-- The numbers given on the way are all those from one count of expansions to the other. -/
theorem compositional_numbers : Compositional fun _ a ms b =>
    a.state.expansions ≤ b.state.expansions ∧
      numbers ms = List.range' (a.state.expansions + 1)
        (b.state.expansions - a.state.expansions) where
  nil _ a := ⟨Nat.le_refl _, by simp [numbers]⟩
  append := by
    intro n a b c ms ns hab hbc
    obtain ⟨hle, hms⟩ := hab
    obtain ⟨hle', hns⟩ := hbc
    refine ⟨Nat.le_trans hle hle', ?_⟩
    have hstart : b.state.expansions + 1 =
        a.state.expansions + 1 + (b.state.expansions - a.state.expansions) := by omega
    have hlength : c.state.expansions - a.state.expansions =
        (b.state.expansions - a.state.expansions) + (c.state.expansions - b.state.expansions) := by
      omega
    rw [numbers_append, hms, hns, hstart, List.range'_append_1, hlength]
  plain v hv := by
    rw [Visit.after_eq_runLine hv]
    obtain ⟨extensions, n, h⟩ := v.before.moves_runLine v.line v.text
    have hcount : (runLine none v.line v.text v.before).state.expansions =
      v.before.state.expansions := congrArg Bearings.expansions h
    have hnone : v.number? = none := by
      rcases hv with hv | hv <;> simp [Visit.number?, hv]
    rw [numbers_around, hnone, hcount]
    exact ⟨Nat.le_refl _, by simp [numbers]⟩
  expanded v x n ms b hn hx hafter hb := by
    obtain ⟨hle, hms⟩ := hb
    rw [numbers_around, hms, hafter, expansions_close hx]
    -- A macro or a repeat takes the next number for itself before its lines; a file takes none.
    rcases Visit.number?_cases (by omega) hx with ⟨hnumber, hopened⟩ | ⟨hnumber, hopened⟩
    · rw [hopened] at hle ⊢
      have hlength : b.state.expansions - v.before.state.expansions =
          b.state.expansions - (v.before.state.expansions + 1) + 1 := by omega
      rw [hnumber, hlength, List.range'_succ]
      exact ⟨by omega, rfl⟩
    · rw [hopened] at hle ⊢
      rw [hnumber]
      exact ⟨hle, rfl⟩
  unread _ a file _ :=
    ⟨Nat.le_refl _, by simp [numbers, fault, mapState, State.fault, State.record]⟩
  range hb := hb
  file hb := hb
  load _ a files name text := ⟨Nat.le_refl _, by simp [numbers, load]⟩

/-- The numbers of the expansions that are going on, innermost first: each is larger than those
around it, and none was given before its time. -/
structure Numbered (st : State) : Prop where
  decreasing : st.uniqueIds.Pairwise (· > ·)
  bounded : ∀ id ∈ st.uniqueIds, id ≤ st.expansions

/-- An expansion that begins gets a number above all others. -/
theorem Numbered.of_opens {a opened : State} {line : Nat} {close : Bearings → Bearings}
    (h : Numbered a) (ho : Opens { a.bearings with line } opened.bearings close) :
    Numbered opened := by
  suffices h' : opened.bearings.uniqueIds.Pairwise (· > ·) ∧
      ∀ id ∈ opened.bearings.uniqueIds, id ≤ opened.bearings.expansions from ⟨h'.1, h'.2⟩
  have hnext : ((a.expansions + 1) :: a.uniqueIds).Pairwise (· > ·) ∧
      ∀ id ∈ (a.expansions + 1) :: a.uniqueIds, id ≤ a.expansions + 1 := by
    refine ⟨List.pairwise_cons.2 ⟨fun id hid => Nat.lt_succ_of_le (h.bounded id hid),
      h.decreasing⟩, fun id hid => ?_⟩
    rcases List.mem_cons.1 hid with rfl | hid
    · exact Nat.le_refl _
    · exact Nat.le_succ_of_le (h.bounded id hid)
  generalize opened.bearings = b at ho
  cases ho with
  | call frame => exact hnext
  | replay => exact hnext
  | file extensions => exact ⟨h.decreasing, h.bounded⟩
  | missing => exact ⟨h.decreasing, h.bounded⟩

theorem Numbered.of_bearings {a b : State} (h : Numbered a)
    (hids : b.uniqueIds.Sublist a.uniqueIds) (hcount : b.expansions = a.expansions) :
    Numbered b where
  decreasing := h.decreasing.sublist hids
  bounded id hid := hcount ▸ h.bounded id (hids.subset hid)

/-- Numbers of expansions that are open stay below the counter. -/
theorem kept_numbered : Kept (fun _ => True) fun a b => Numbered a.state → Numbered b.state where
  refl _ h := h
  trans hab hbc h := hbc (hab h)
  plain v _ h := by
    obtain ⟨extensions, n, hb⟩ := v.before.moves_runLine v.line v.text
    have hids : (runLine none v.line v.text v.before).state.uniqueIds =
      v.before.state.uniqueIds := congrArg Bearings.uniqueIds hb
    exact h.of_bearings (hids ▸ List.Sublist.refl _) (congrArg Bearings.expansions hb)
  opened v x _ hx h := by
    obtain ⟨close, hopens, -⟩ := v.before.opens_of_expansionOf? hx
    exact h.of_opens hopens
  closed v x hx a h := by
    obtain ⟨close, hopens, hclose⟩ := v.before.opens_of_expansionOf? hx
    have hids := congrArg Bearings.uniqueIds (hclose a)
    refine h.of_bearings ?_ (expansions_close hx a)
    show (x.close a).state.bearings.uniqueIds.Sublist _
    rw [hids]
    generalize x.opened.state.bearings = opened at hopens
    cases hopens with
    | call frame => exact List.tail_sublist _
    | replay => exact List.tail_sublist _
    | file extensions => exact List.Sublist.refl _
    | missing => exact List.Sublist.refl _
  fault a cause token h := ⟨h.decreasing, h.bounded⟩
  moved a files sources file line extensions h := ⟨h.decreasing, h.bounded⟩

/-! ## The main statement -/

/-- Assembling always comes to an end, and never with more expansions at once than the limit;
around a line, before it and after it, the same number of them is going on. Whatever a line expands
to or fails to expand to, it leaves the file, the macro calls and the numbers of expansions as they
were, and an inclusion also the extensions. The numbers of expansions are ordered, and no two macro
calls or repeats get the same one. -/
theorem expansion_bounded_and_balanced :
    (∀ (depth : Nat) (job : Job) (asm after : Assembler),
      Carries depth job asm after ↔ after = job.run (asm.runnerAt depth) asm) ∧
    (∀ (asm after : Assembler) (source : Source),
      Assembles asm source after ↔ after = source.run asm) ∧
    (∀ (asm : Assembler) (sources : List Source) (past rest : List Moment),
      asm.historyOf sources = past ++ rest →
        0 ≤ active past ∧ active past ≤ asm.state.config.maxDepth) ∧
    (∀ (asm : Assembler) (sources : List Source) (past rest : List Moment) (m : Moment),
      asm.historyOf sources = past ++ m :: rest →
        active (if m.done then past ++ [m] else past) + m.visit.levels =
          asm.state.config.maxDepth) ∧
    (∀ (depth line : Nat) (text : String) (asm after : Assembler),
      Carries depth (.line line text) asm after →
        Agree asm.state.bearings after.state.bearings ∧ after.state.line = line ∧
        ∀ parsed asm', parsed? line text asm = some (parsed, asm') → parsed.isInclude →
          after.state.extensions = asm.state.extensions) ∧
    (∀ (config : Config) (files : FileStore) (sources : List Source),
      ∀ asm ∈ (new config files).reached sources, Numbered asm.state) ∧
    (∀ (asm : Assembler) (sources : List Source),
      (numbers (asm.historyOf sources)).Pairwise (· < ·)) := by
  -- The rules describe what the runners compute, and everything else is a property of whole
  -- runs that is put together from lines and expansions.
  refine ⟨fun _ _ _ _ => carries_iff, fun _ _ _ => assembles_iff, ?_, ?_, ?_, ?_, ?_⟩
  · intro asm sources past rest h
    exact (compositional_nested.of_sources sources asm).active_le ⟨rest, h.symm⟩
  · intro asm sources past rest m h
    exact (compositional_nested.of_sources sources asm).around past m rest h
  · intro depth line text asm after h
    rw [eq_run_of_carries h]
    exact ⟨(balanced_runner _ line text asm).bearings, line_runner _ line text asm,
      fun parsed asm' hp hi => extensions_runner hp hi⟩
  · intro config files sources
    have hnew : Numbered (new config files).state := ⟨.nil, by simp [new, State.ofConfig]⟩
    exact kept_numbered.holds_reached sources hnew fun _ _ => trivial
  · intro asm sources
    rw [(compositional_numbers.of_sources sources asm).2]
    exact List.pairwise_lt_range'

end Sm83Asm.Assembler
