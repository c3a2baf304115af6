import Sm83Asm.Assembler

set_option autoImplicit false

/-!
# The history of a run

Carrying out one line may carry out many more: those of a macro, of a repeat or of a file. This
module lists all of them. A line that expands does so once it has begun (`Expansion`), and
every line, at every level, gives two moments of the history: before it and after it.

Main statements: what holds of a run's parts holds of the whole (`Compositional.of_source`). A
relation that is kept by every line of its own account, and by the beginning and the end of every
expansion, holds from each moment of a run to each later one (`Kept.pairwise_reached`), and so an
invariant holds all along it (`Kept.holds_reached`).
-/

namespace Sm83Asm

namespace Assembler

/-! ## Expansions -/

/-- Lines that a line carries out one level deeper. -/
structure Expansion where
  file : String
  /-- The lines are those behind the first `start` up to number `stop`. -/
  start : Nat
  stop : Nat
  count : Nat
  /-- The assembler once the expansion has begun. -/
  opened : Assembler
  /-- What is put back at the end. -/
  close : Assembler → Assembler

/-- Carries out an expansion. -/
def Expansion.run (x : Expansion) (run : LineRunner) : Assembler :=
  x.close (runRepeatedly run x.file x.start x.stop x.count x.opened)

/-- The expansion of a file whose lines are known. -/
def ofFile (name : String) (asm : Assembler) : Expansion where
  file := name
  start := 0
  stop := ((asm.sources.get? name).map List.length).getD 0
  count := 1
  opened := asm.mapState fun st => { st with extensions := !st.config.compatibility }
  close after := after.mapState fun st => { st with extensions := asm.state.extensions }

/-- The expansion of a macro call. -/
def ofMacro? (asm : Assembler) (name : Token) (args : List Token) : Option Expansion :=
  (asm.state.macros.get? name.text).map fun body =>
    { file := body.file
      start := body.startLine
      stop := body.endLine - 1
      count := 1
      opened := asm.beginExpansion.mapState fun st =>
        { st with frames := { name := name.text, args := args.map Token.text } :: st.frames }
      close := fun after =>
        (after.mapState fun st => { st with frames := st.frames.tail }).endExpansion }

/-- The expansion of the end of a repeat. -/
def ofRepeat? (asm : Assembler) : Option Expansion :=
  match asm.state.repeats with
  | [block] =>
    some
      { file := block.file
        start := block.line
        stop := asm.state.line - 1
        count := block.count
        opened := (asm.mapState fun st => { st with repeats := [] }).beginExpansion
        close := endExpansion }
  | _ => none

/-- The expansion of an inclusion; nothing is carried out for a file that cannot be found. -/
def ofInclude (asm : Assembler) (e : Expr) : Expansion :=
  let (path, st) := asm.state.text e
  let asm := { asm with state := st }
  match asm.files.retrieve path asm.state.file with
  | (none, files) =>
    { file := path
      start := 0
      stop := 0
      count := 0
      opened := { asm with files }.fault (.missingFile path) e.token
      close := id }
  | (some (name, contents), files) =>
    ofFile name ({ asm with files }.load name (Text.decode contents.toList))

/-- The expansion of a keyword with the right number of arguments. -/
def ofKeyword? (asm : Assembler) (keyword : Keyword) (args : List Expr) : Option Expansion :=
  match keyword, args with
  | .endr, _ => asm.ofRepeat?
  | .includeFile, [e] => some (asm.ofInclude e)
  | _, _ => none

/-- The expansion of a parsed line. -/
def expansion? (line : Line) (asm : Assembler) : Option Expansion :=
  match line.operation with
  | some (.macroCall name args) => (asm.mapState (·.defineLabel? line.label)).ofMacro? name args
  | some (.keyword word args) =>
    match Keyword.ofWord? word.text with
    | none => none
    | some keyword =>
      let asm := if keyword.namesLabel then asm else asm.mapState (·.defineLabel? line.label)
      if keyword.checksOwnArity || keyword.arity.accepts args.length then
        asm.ofKeyword? keyword args
      else none
  | _ => none

/-- A line expands to a macro, to a repeat or to a file, once the label in front of it has been
defined, if it has to be. -/
theorem expansion?_cases {line : Line} {asm : Assembler} {x : Expansion}
    (h : expansion? line asm = some x) :
    ∃ asm', (asm' = asm ∨ asm' = asm.mapState (·.defineLabel? line.label)) ∧
      ((∃ name args, asm'.ofMacro? name args = some x) ∨ asm'.ofRepeat? = some x ∨
        ∃ e, x = asm'.ofInclude e) := by
  unfold expansion? at h
  split at h
  · exact ⟨_, Or.inr rfl, Or.inl ⟨_, _, h⟩⟩
  · split at h
    · exact absurd h (by simp)
    · rename_i keyword hk
      have hlabel : ∀ own : Bool, (if own then asm else asm.mapState (·.defineLabel? line.label)) =
          asm ∨ (if own then asm else asm.mapState (·.defineLabel? line.label)) =
            asm.mapState (·.defineLabel? line.label) := by
        intro own
        cases own with
        | true => exact Or.inl rfl
        | false => exact Or.inr rfl
      dsimp only at h
      split at h
      · unfold ofKeyword? at h
        split at h
        · exact ⟨_, hlabel _, Or.inr (Or.inl h)⟩
        · exact ⟨_, hlabel _, Or.inr (Or.inr ⟨_, (Option.some.inj h).symm⟩)⟩
        · exact absurd h (by simp)
      · exact absurd h (by simp)
  · exact absurd h (by simp)

/-- With a level left, a macro call carries out its expansion. -/
theorem callMacro_some (run : LineRunner) (name : Token) (args : List Token) (asm : Assembler) :
    asm.callMacro (some run) name args =
      match asm.ofMacro? name args with
      | some x => x.run run
      | none => asm.callMacro none name args := by
  unfold callMacro ofMacro?
  cases asm.state.macros.get? name.text with
  | none => rfl
  | some body => rfl

/-- With a level left, the end of the outermost repeat carries out its expansion. -/
theorem endRepeat_some (run : LineRunner) (word : Token) (asm : Assembler) :
    asm.endRepeat (some run) word =
      match asm.ofRepeat? with
      | some x => x.run run
      | none => asm.endRepeat none word := by
  unfold endRepeat ofRepeat?
  rcases asm.state.repeats with _ | ⟨block, _ | ⟨outer, rest⟩⟩
  · rfl
  · rfl
  · rfl

/-- With a level left, an inclusion carries out its expansion. -/
theorem includeFile_some (run : LineRunner) (word : Token) (e : Expr) (asm : Assembler) :
    asm.includeFile (some run) word e = (asm.ofInclude e).run run := by
  unfold includeFile ofInclude
  dsimp only [deeper]
  rcases hr : asm.files.retrieve (asm.state.text e).1 (asm.state.text e).2.file with
    ⟨_ | ⟨name, contents⟩, files⟩
  · rfl
  · rfl

/-- With a level left, a keyword carries out its expansion if it has one. -/
theorem keywordBody_some (run : LineRunner) (keyword : Keyword) (label : Option LabelDef)
    (word : Token) (args : List Expr) (asm : Assembler) :
    asm.keywordBody (some run) keyword label word args =
      match asm.ofKeyword? keyword args with
      | some x => x.run run
      | none => asm.keywordBody none keyword label word args := by
  cases keyword with
  | endr => exact endRepeat_some run word asm
  | includeFile =>
    rcases args with _ | ⟨e, _ | ⟨e', rest⟩⟩
    · rfl
    · exact includeFile_some run word e asm
    · rfl
  | _ => rcases args with _ | ⟨a, _ | ⟨b, _ | ⟨c, rest⟩⟩⟩ <;> rfl

/-- A line does what its expansion does, and else the same at every level. -/
theorem execute_some (run : LineRunner) (line : Line) (asm : Assembler) :
    execute (some run) line asm =
      match expansion? line asm with
      | some x => x.run run
      | none => execute none line asm := by
  unfold execute expansion?
  rcases line.operation with _ | op
  · rfl
  · cases op with
    | macroCall name args => exact callMacro_some run name args _
    | keyword word args =>
      dsimp only [withKeyword]
      cases Keyword.ofWord? word.text with
      | none => rfl
      | some keyword =>
        dsimp only
        split
        · exact keywordBody_some run keyword _ word args _
        · rfl
    | _ => rfl

/-! ## Lines -/

/-- A line that was cut into tokens and parsed, and the assembler that carries it out. -/
def parsed? (line : Nat) (text : String) (asm : Assembler) : Option (Line × Assembler) :=
  match statement line text { asm.state with line } with
  | (.line parsed, st) => some (parsed, { asm with state := st })
  | _ => none

/-- Cutting a line into tokens and parsing it adds reports and nothing else. -/
theorem statement_footprint (line : Nat) (text : String) (st : State) :
    ∃ diagnostics, (statement line text st).2 = { st with diagnostics } := by
  unfold statement
  dsimp only
  split
  · exact ⟨_, rfl⟩
  · exact ⟨_, rfl⟩

/-- What is carried out is one word of a line that is passed over, or a line that is parsed in
full. -/
theorem statement_cases {line : Nat} {text : String} {st st' : State} {parsed : Line}
    (h : statement line text st = (.line parsed, st')) :
    st.passOver? (st.rawTokens line text.toList) = some (.line parsed) ∨
      st.passOver? (st.rawTokens line text.toList) = none ∧
        (parseLine (st.tokenize line text.toList).1).1 = .line parsed := by
  unfold statement at h
  dsimp only at h
  split at h
  · rename_i passed hpass
    obtain rfl : passed = .line parsed := (Prod.mk.inj h).1
    exact Or.inl hpass
  · rename_i hpass
    exact Or.inr ⟨hpass, (Prod.mk.inj h).1⟩

/-- A parsed line is what the line asks for, and the assembler has only its state changed. -/
theorem of_parsed? {line : Nat} {text : String} {asm asm' : Assembler} {parsed : Line}
    (h : parsed? line text asm = some (parsed, asm')) :
    ∃ st, statement line text { asm.state with line } = (.line parsed, st) ∧
      asm' = { asm with state := st } := by
  unfold parsed? at h
  split at h
  · rename_i parsed' st hst
    cases h
    exact ⟨st, hst, rfl⟩
  · exact absurd h (by simp)

/-- A line that is parsed is carried out by what it asks for. -/
theorem runLine_of_parsed? (next : Option LineRunner) {line : Nat} {text : String}
    {asm asm' : Assembler} {parsed : Line} (h : parsed? line text asm = some (parsed, asm')) :
    runLine next line text asm = execute next parsed asm' := by
  obtain ⟨st, hst, rfl⟩ := of_parsed? h
  rw [runLine, hst]

/-- A line that is not carried out leaves what reading it leaves. -/
theorem runLine_eq_of_not_parsed (next : Option LineRunner) {line : Nat} {text : String}
    {asm : Assembler} (h : parsed? line text asm = none) :
    runLine next line text asm =
      { asm with state := (statement line text { asm.state with line }).2 } := by
  unfold parsed? at h
  unfold runLine
  rcases hs : statement line text { asm.state with line } with ⟨parsed | start | stop, st⟩
  · rw [hs] at h
    exact absurd h (by simp)
  · rfl
  · rfl

/-- The expansion of a line of text. -/
def expansionOf? (line : Nat) (text : String) (asm : Assembler) : Option Expansion :=
  (parsed? line text asm).bind fun (parsed, asm) => expansion? parsed asm

/-- A line of text does what its expansion does, and else the same at every level. -/
theorem runLine_some (run : LineRunner) (line : Nat) (text : String) (asm : Assembler) :
    runLine (some run) line text asm =
      match expansionOf? line text asm with
      | some x => x.run run
      | none => runLine none line text asm := by
  unfold runLine expansionOf? parsed?
  rcases statement line text { asm.state with line } with ⟨parsed | _ | _, st⟩
  · exact execute_some run parsed _
  · rfl
  · rfl

/-! ## Moments -/

/-- A line that is carried out, with the number of levels that are left. -/
structure Visit where
  levels : Nat
  line : Nat
  text : String
  before : Assembler

/-- The assembler when the line has been carried out. -/
def Visit.after (v : Visit) : Assembler := runner v.levels v.line v.text v.before

/-- The time before or after a line. -/
structure Moment where
  visit : Visit
  done : Bool

/-- The assembler at a moment. -/
def Moment.asm (m : Moment) : Assembler := if m.done then m.visit.after else m.visit.before

/-- The moments of a line with its number. -/
abbrev LineHistory := Nat → String → Assembler → List Moment

/-- Goes to the lines of a file. -/
def enter (asm : Assembler) (file : String) : Assembler :=
  asm.mapState fun st => { st with file }

/-- Goes back to where another assembler stands. -/
def back (asm place : Assembler) : Assembler :=
  asm.mapState fun st => { st with file := place.state.file, line := place.state.line }

/-- Lines are carried out one stretch after the other, and their numbers go on. -/
theorem runNumbered_append (run : LineRunner) (line : Nat) (front back : List String)
    (asm : Assembler) :
    runNumbered run line (front ++ back) asm =
      runNumbered run (line + front.length) back (runNumbered run line front asm) := by
  induction front generalizing line asm with
  | nil => rfl
  | cons text rest ih =>
    have hlength : line + (text :: rest).length = line + 1 + rest.length := by
      simp only [List.length_cons]
      omega
    rw [List.cons_append, runNumbered, ih, hlength]
    rfl

/-- The lines of a known file are carried out there, and the place before is taken up again. -/
theorem runLines_of_some (run : LineRunner) {file : String} (start stop : Nat) {asm : Assembler}
    {lines : List String} (h : asm.sources.get? file = some lines) :
    runLines run file start stop asm =
      (runNumbered run (start + 1) ((lines.drop start).take (stop - start))
        (asm.enter file)).back asm := by
  rw [runLines, h]
  rfl

theorem runLines_of_none (run : LineRunner) {file : String} (start stop : Nat) {asm : Assembler}
    (h : asm.sources.get? file = none) :
    runLines run file start stop asm =
      asm.fault (.sourceUnavailable file) (.start asm.state.line) := by
  rw [runLines, h]

/-- The moments of lines that are numbered from `line` on. -/
def numberedHistory (run : LineRunner) (past : LineHistory) :
    Nat → List String → Assembler → List Moment
  | _, [], _ => []
  | line, text :: rest, asm =>
    past line text asm ++ numberedHistory run past (line + 1) rest (run line text asm)

/-- The moments of the lines of a file behind the first `start` up to line number `stop`. -/
def linesHistory (run : LineRunner) (past : LineHistory) (file : String) (start stop : Nat)
    (asm : Assembler) : List Moment :=
  match asm.sources.get? file with
  | none => []
  | some lines =>
    numberedHistory run past (start + 1) ((lines.drop start).take (stop - start))
      (asm.mapState fun st => { st with file })

/-- The moments of the lines of a file, a number of times. -/
def repeatedHistory (run : LineRunner) (past : LineHistory) (file : String) (start stop : Nat) :
    Nat → Assembler → List Moment
  | 0, _ => []
  | n + 1, asm =>
    linesHistory run past file start stop asm ++
      repeatedHistory run past file start stop n (runLines run file start stop asm)

/-- The moments of an expansion. -/
def Expansion.history (x : Expansion) (run : LineRunner) (past : LineHistory) : List Moment :=
  repeatedHistory run past x.file x.start x.stop x.count x.opened

/-- The moments of a line around those of its expansion. -/
def Visit.around (v : Visit) (inner : List Moment) : List Moment :=
  ⟨v, false⟩ :: inner ++ [⟨v, true⟩]

/-- The moments of a line and of all that it expands to, in order of time. -/
def history : Nat → LineHistory
  | 0, line, text, asm => Visit.around ⟨0, line, text, asm⟩ []
  | levels + 1, line, text, asm =>
    Visit.around ⟨levels + 1, line, text, asm⟩
      (match expansionOf? line text asm with
        | some x => x.history (runner levels) (history levels)
        | none => [])

/-! ## Whole runs -/

/-- Something that an assembler is given to carry out. -/
inductive Source where
  | line (number : Nat) (content : String)
  | text (name content : String)
  /-- A file, which is passed over when it cannot be found. -/
  | file (path : String)

/-- Carries out a source. -/
def Source.run (asm : Assembler) : Source → Assembler
  | .line number content => asm.assembleLine number content
  | .text name content => asm.assembleText name content
  | .file path => (asm.assembleFile? path).getD asm

/-- The moments of a text. -/
def textHistory (asm : Assembler) (name text : String) : List Moment :=
  (ofFile name (asm.load name text)).history (runner asm.state.config.maxDepth)
    (history asm.state.config.maxDepth)

/-- The moments of a source. -/
def Source.history (asm : Assembler) : Source → List Moment
  | .line number content => Assembler.history asm.state.config.maxDepth number content asm
  | .text name content => asm.textHistory name content
  | .file path =>
    match asm.files.retrieve path "" with
    | (none, _) => []
    | (some (name, contents), files) =>
      { asm with files }.textHistory name (Text.decode contents.toList)

/-- Carries out sources one after the other. -/
def runAll (asm : Assembler) (sources : List Source) : Assembler := sources.foldl Source.run asm

/-- The moments of sources that are carried out one after the other. -/
def historyOf (asm : Assembler) : List Source → List Moment
  | [] => []
  | source :: rest => source.history asm ++ historyOf (source.run asm) rest

/-- The assemblers between the lines of a run, in order of time. -/
def reached (asm : Assembler) (sources : List Source) : List Assembler :=
  asm :: (asm.historyOf sources).map Moment.asm ++ [asm.runAll sources]

/-! ## Putting stretches together -/

/-- The end of the run of a line that expands to nothing, or that has no level left. -/
theorem Visit.after_eq_runLine {v : Visit}
    (h : v.levels = 0 ∨ expansionOf? v.line v.text v.before = none) :
    v.after = runLine none v.line v.text v.before := by
  obtain ⟨levels, line, text, before⟩ := v
  cases levels with
  | zero => rfl
  | succ levels =>
    have hx : expansionOf? line text before = none := h.resolve_left (Nat.succ_ne_zero levels)
    show runLine (some (runner levels)) line text before = _
    rw [runLine_some, hx]

/-- A relation between two assemblers and the moments on the way from one to the other, with a
number of levels left, that holds of whole runs because it holds of their parts: of lines, of
expansions around what they carry out, and of the ranges of files. -/
structure Compositional (A : Nat → Assembler → List Moment → Assembler → Prop) : Prop where
  nil : ∀ n a, A n a [] a
  append : ∀ {n a b c ms ns}, A n a ms b → A n b ns c → A n a (ms ++ ns) c
  plain : ∀ v : Visit, v.levels = 0 ∨ expansionOf? v.line v.text v.before = none →
    A v.levels v.before (v.around []) v.after
  expanded : ∀ (v : Visit) (x : Expansion) {n ms b}, v.levels = n + 1 →
    expansionOf? v.line v.text v.before = some x → v.after = x.close b →
    A n x.opened ms b → A v.levels v.before (v.around ms) v.after
  unread : ∀ n a file, a.sources.get? file = none →
    A n a [] (a.fault (.sourceUnavailable file) (.start a.state.line))
  range : ∀ {n a file ms b}, A n (a.enter file) ms b → A n a ms (b.back a)
  file : ∀ {n a name ms b}, A n (ofFile name a).opened ms b → A n a ms ((ofFile name a).close b)
  load : ∀ n a files name text, A n a [] ({ a with files }.load name text)

namespace Compositional

variable {A : Nat → Assembler → List Moment → Assembler → Prop} {n : Nat}

section Ranges

variable {run : LineRunner} {past : LineHistory}

/-- Of lines that are numbered from some line on, by induction over the lines. -/
theorem of_numbered (h : Compositional A)
    (hrun : ∀ line text a, A n a (past line text a) (run line text a)) (lines : List String)
    (line : Nat) (a : Assembler) :
    A n a (numberedHistory run past line lines a) (runNumbered run line lines a) := by
  induction lines generalizing line a with
  | nil => exact h.nil n a
  | cons text rest ih => exact h.append (hrun line text a) (ih _ _)

/-- Of a range of lines of a file. -/
theorem of_lines (h : Compositional A)
    (hrun : ∀ line text a, A n a (past line text a) (run line text a)) (file : String)
    (start stop : Nat) (a : Assembler) :
    A n a (linesHistory run past file start stop a) (runLines run file start stop a) := by
  unfold linesHistory
  cases hs : a.sources.get? file with
  | none =>
    rw [runLines_of_none run start stop hs]
    exact h.unread n a file hs
  | some lines =>
    rw [runLines_of_some run start stop hs]
    exact h.range (h.of_numbered hrun _ _ _)

/-- Of a range of lines that is carried out a number of times. -/
theorem of_repeated (h : Compositional A)
    (hrun : ∀ line text a, A n a (past line text a) (run line text a)) (file : String)
    (start stop count : Nat) (a : Assembler) :
    A n a (repeatedHistory run past file start stop count a)
      (runRepeatedly run file start stop count a) := by
  induction count generalizing a with
  | zero => exact h.nil n a
  | succ count ih => exact h.append (h.of_lines hrun file start stop a) (ih _)

end Ranges

/-- Of one line, with all that it expands to. -/
theorem of_line (h : Compositional A) (levels line : Nat) (text : String) (a : Assembler) :
    A levels a (history levels line text a) (runner levels line text a) := by
  -- The lines of an expansion have one level less to expand to.
  induction levels generalizing line text a with
  | zero => exact h.plain ⟨0, line, text, a⟩ (Or.inl rfl)
  | succ levels ih =>
    rw [history]
    cases hx : expansionOf? line text a with
    | none => exact h.plain ⟨levels + 1, line, text, a⟩ (Or.inr hx)
    | some x =>
      refine h.expanded ⟨levels + 1, line, text, a⟩ x rfl hx ?_
        (h.of_repeated ih x.file x.start x.stop x.count x.opened)
      show runLine (some (runner levels)) line text a = _
      rw [runLine_some, hx]
      rfl

/-- Of a text that is carried out as a file. -/
theorem of_text (h : Compositional A) (a : Assembler) (files : FileStore) (name content : String) :
    A a.state.config.maxDepth a ({ a with files }.textHistory name content)
      ({ a with files }.assembleText name content) := by
  let x := ofFile name ({ a with files }.load name content)
  have hbody := h.of_repeated (h.of_line a.state.config.maxDepth) x.file x.start x.stop x.count
    x.opened
  have hfile : A _ _ _ (x.close _) := h.file hbody
  have htext := h.append (h.load _ a files name content) hfile
  exact htext

/-- Of a source. -/
theorem of_source (h : Compositional A) (a : Assembler) (source : Source) :
    A a.state.config.maxDepth a (source.history a) (source.run a) := by
  cases source with
  | line number content => exact h.of_line _ number content a
  | text name content => exact h.of_text a a.files name content
  | file path =>
    simp only [Source.history, Source.run, assembleFile?]
    rcases a.files.retrieve path "" with ⟨_ | ⟨name, contents⟩, files⟩
    · exact h.nil _ a
    · exact h.of_text a files name _

end Compositional

/-! ## What holds along a run -/

/-- Something that holds from each of a list of assemblers to the later ones, and to them from a
first one and from them to a last one. -/
structure Along (R : Assembler → Assembler → Prop) (first : Assembler) (moments : List Moment)
    (last : Assembler) : Prop where
  whole : R first last
  from_first : ∀ m ∈ moments, R first m.asm
  to_last : ∀ m ∈ moments, R m.asm last
  pairwise : moments.Pairwise fun m n => R m.asm n.asm

/-- An assembler that was moved to another place, perhaps with more files read. -/
def moved (asm : Assembler) (files : FileStore) (sources : Table (List String)) (file : String)
    (line : Nat) (extensions : Bool) : Assembler :=
  { state := { asm.state with file, line, extensions }, files, sources }

/-- A relation between assemblers that is kept by lines which pass a test. Lines are asked for what
they do themselves: an expansion is known by its beginning and its end. -/
structure Kept (test : Visit → Prop) (R : Assembler → Assembler → Prop) : Prop where
  refl : ∀ a, R a a
  trans : ∀ {a b c}, R a b → R b c → R a c
  plain : ∀ v : Visit, test v → R v.before (runLine none v.line v.text v.before)
  opened : ∀ (v : Visit) (x : Expansion), test v →
    expansionOf? v.line v.text v.before = some x → R v.before x.opened
  closed : ∀ (v : Visit) (x : Expansion), expansionOf? v.line v.text v.before = some x →
    ∀ a, R a (x.close a)
  fault : ∀ a cause token, R a (a.fault cause token)
  moved : ∀ a files sources file line extensions,
    R a (a.moved files sources file line extensions)

namespace Kept

variable {test : Visit → Prop} {R : Assembler → Assembler → Prop}

theorem along_nil {a b : Assembler} (hab : R a b) : Along R a [] b :=
  ⟨hab, by simp, by simp, .nil⟩

/-- Two stretches on end: what holds to the end of the first and from there on holds across. -/
theorem along_append (h : Kept test R) {a b c : Assembler} {ms ns : List Moment}
    (hab : Along R a ms b) (hbc : Along R b ns c) : Along R a (ms ++ ns) c where
  whole := h.trans hab.whole hbc.whole
  from_first m hm := by
    rcases List.mem_append.1 hm with hm | hm
    · exact hab.from_first m hm
    · exact h.trans hab.whole (hbc.from_first m hm)
  to_last m hm := by
    rcases List.mem_append.1 hm with hm | hm
    · exact h.trans (hab.to_last m hm) hbc.whole
    · exact hbc.to_last m hm
  pairwise := List.pairwise_append.2 ⟨hab.pairwise, hbc.pairwise,
    fun m hm n hn => h.trans (hab.to_last m hm) (hbc.from_first n hn)⟩

theorem along_from (h : Kept test R) {a b c : Assembler} {ms : List Moment} (hab : R a b)
    (hbc : Along R b ms c) : Along R a ms c :=
  h.along_append (along_nil hab) hbc

theorem along_to (h : Kept test R) {a b c : Assembler} {ms : List Moment} (hab : Along R a ms b)
    (hbc : R b c) : Along R a ms c := by
  have := h.along_append hab (along_nil hbc)
  rwa [List.append_nil] at this

/-- The two moments of a line around those of its expansion. -/
theorem along_around (h : Kept test R) {v : Visit} {inner : List Moment}
    (hv : Along R v.before inner v.after) : Along R v.before (v.around inner) v.after := by
  have hpoint : ∀ m : Moment, Along R m.asm [m] m.asm := fun m =>
    ⟨h.refl _, by simpa using h.refl _, by simpa using h.refl _, List.pairwise_singleton _ _⟩
  exact h.along_append (h.along_append (hpoint ⟨v, false⟩) hv) (hpoint ⟨v, true⟩)

/-- A relation that is kept holds along the lines of a run, as long as they pass the test. -/
theorem compositional (h : Kept test R) : Compositional fun _ a ms b =>
    (∀ m ∈ ms, test m.visit) → Along R a ms b where
  nil _ a _ := along_nil (h.refl a)
  append hab hbc ht := by
    rw [List.forall_mem_append] at ht
    exact h.along_append (hab ht.1) (hbc ht.2)
  plain v hv ht := by
    have hline := h.plain v (ht ⟨v, false⟩ (by simp [Visit.around]))
    rw [← Visit.after_eq_runLine hv] at hline
    exact h.along_around (along_nil hline)
  expanded v x n ms b _ hx hafter hb ht := by
    have htest := ht ⟨v, false⟩ (by simp [Visit.around])
    have hbody := hb fun m hm => ht m (by simp [Visit.around, hm])
    refine h.along_around ?_
    rw [hafter]
    exact h.along_to (h.along_from (h.opened v x htest hx) hbody) (h.closed v x hx b)
  unread _ a file _ _ := along_nil (h.fault a _ _)
  range hb ht :=
    h.along_to (h.along_from (h.moved _ _ _ _ _ _) (hb ht)) (h.moved _ _ _ _ _ _)
  file hb ht := h.along_to (h.along_from (h.moved _ _ _ _ _ _) (hb ht)) (h.moved _ _ _ _ _ _)
  load _ a files name text _ := along_nil (h.moved a files _ _ _ _)

/-- Along the history of a run: what lines keep holds from every moment to the later ones. -/
theorem along_historyOf (h : Kept test R) (sources : List Source) (a : Assembler)
    (ht : ∀ m ∈ a.historyOf sources, test m.visit) :
    Along R a (a.historyOf sources) (a.runAll sources) := by
  induction sources generalizing a with
  | nil => exact along_nil (h.refl a)
  | cons source rest ih =>
    rw [historyOf, List.forall_mem_append] at ht
    exact h.along_append (h.compositional.of_source a source ht.1) (ih _ ht.2)

/-- From each moment of a run to each later one. -/
theorem pairwise_reached (h : Kept test R) (sources : List Source) (a : Assembler)
    (ht : ∀ m ∈ a.historyOf sources, test m.visit) : (a.reached sources).Pairwise R := by
  have halong := h.along_historyOf sources a ht
  have hlast : ((a.historyOf sources).map Moment.asm ++ [a.runAll sources]).Pairwise R := by
    refine List.pairwise_append.2
      ⟨List.pairwise_map.2 halong.pairwise, List.pairwise_singleton _ _, fun b hb c hc => ?_⟩
    obtain ⟨m, hm, rfl⟩ := List.mem_map.1 hb
    obtain rfl := List.mem_singleton.1 hc
    exact halong.to_last m hm
  refine List.pairwise_cons.2 ⟨fun b hb => ?_, hlast⟩
  rcases List.mem_append.1 hb with hb | hb
  · obtain ⟨m, hm, rfl⟩ := List.mem_map.1 hb
    exact halong.from_first m hm
  · obtain rfl := List.mem_singleton.1 hb
    exact halong.whole

/-- What holds at the start of a run and is kept holds all along it. -/
theorem holds_reached {P : Assembler → Prop} (h : Kept test fun a b => P a → P b)
    (sources : List Source) {a : Assembler} (ha : P a)
    (ht : ∀ m ∈ a.historyOf sources, test m.visit) : ∀ b ∈ a.reached sources, P b := by
  have hpairs := h.pairwise_reached sources a ht
  intro b hb
  rcases List.mem_cons.1 hb with rfl | hb
  · exact ha
  · exact (List.pairwise_cons.1 hpairs).1 b hb ha

end Kept

end Assembler

end Sm83Asm
