import Sm83Asm.Proofs.Layout.UnionHomes
import Sm83Asm.Proofs.Run.AppendOnly
import Sm83Asm.Proofs.Run.Conditional

set_option autoImplicit false

/-!
# Labels in front of lines

A label in front of an operation is a place in the code, unless the operation gives the name a
meaning of its own. This module follows such a label through a line that is carried out: the label
is defined first, and what is left of the line is carried out as if it had none.

Main statement: the label enters the table of labels or the line adds a diagnostic, for every line
but two kinds, which leave all labels as they are (`label_placed_or_reported`): a directive, and a
line of which only the word is kept that delimits the branches of a conditional block. Nothing is
said about a label that is lost there (`label_lost_without_report`).
-/

namespace Sm83Asm

open Stores

/-! ## Lines with labels -/

/-- Whether the label in front of an operation is a place, and not the symbol that the operation
defines. -/
def Operation.marksPlace : Operation → Bool
  | .assign _ _ => false
  | .keyword word _ | .options word _ => !(Keyword.ofWord? word.text).any Keyword.namesLabel
  | _ => true

/-- Whether the label in front of a line is a place. -/
def Line.marksPlace (line : Line) : Bool := line.operation.all Operation.marksPlace

/-- Whether a line turns the extensions on or off. -/
def Line.isDirective (line : Line) : Bool :=
  match line.operation with
  | some (.directive _ _) => true
  | _ => false

/-- A line without its label. -/
def Line.unlabelled (line : Line) : Line := { line with label := none }

theorem Line.isNamed_unlabelled (line : Line) : line.unlabelled.IsNamed := by
  intro label hlabel
  exact absurd hlabel (by simp [unlabelled])

theorem State.size_diagnostics_fault (st : State) (cause : EvaluationCause) (token : Token) :
    (st.fault cause token).diagnostics.size = st.diagnostics.size + 1 := by
  simp [fault, record]

/-- A label is reported, or its full name is new and is in the table from then on. -/
theorem State.defineLabel_cases (st : State) (label : LabelDef) :
    (∃ cause, st.defineLabel label = st.fault cause label.name) ∨
      ∃ full, st.qualify label.name.text = some full ∧ full ∉ st.labels.keys ∧
        full ∈ (st.defineLabel label).labels.keys := by
  unfold defineLabel
  dsimp only
  split
  · cases hq : st.qualify label.name.text with
    | none => exact Or.inl ⟨_, rfl⟩
    | some full =>
      dsimp only
      split
      · exact Or.inl ⟨_, rfl⟩
      · rename_i hnew
        rw [Bool.or_eq_true, not_or, Table.contains_iff] at hnew
        exact Or.inr ⟨full, rfl, hnew.1, Table.mem_keys_insert.2 (Or.inr rfl)⟩
  · exact Or.inl ⟨_, rfl⟩

theorem Table.Extends.mem_keys {α : Type} {R : α → α → Prop} {a b : Table α} (h : a.Extends R b)
    {key : String} (hkey : key ∈ a.keys) : key ∈ b.keys := by
  obtain ⟨⟨_, value⟩, hentry, rfl⟩ := List.mem_map.1 hkey
  obtain ⟨i, hi⟩ := List.getElem?_of_mem hentry
  obtain ⟨value', hi', -⟩ := h i _ value hi
  exact List.mem_map.2 ⟨_, List.mem_of_getElem? hi', rfl⟩

namespace Assembler

/-- A keyword that defines no symbol does not look at the label in front of it. -/
theorem keywordBody_unlabelled (asm : Assembler) (next : Option LineRunner) {keyword : Keyword}
    (h : keyword.namesLabel = false) (label : Option LabelDef) (word : Token) (args : List Expr) :
    asm.keywordBody next keyword label word args = asm.keywordBody next keyword none word args := by
  cases keyword with
  | equ | equs | set | rb | rw | rl | macroStart => exact absurd h (by decide)
  | _ => rcases args with _ | ⟨a, _ | ⟨b, _ | ⟨c, rest⟩⟩⟩ <;> rfl

/-- A keyword is unknown, or the label in front of it is defined first. -/
theorem withKeyword_unlabelled (asm : Assembler) (label : LabelDef) (word : Token) (count : Nat)
    {k k' : Keyword → Assembler → Assembler}
    (hplace : (Keyword.ofWord? word.text).any Keyword.namesLabel = false)
    (hk : ∀ keyword asm, keyword.namesLabel = false → k keyword asm = k' keyword asm) :
    (∃ cause token, asm.withKeyword (some label) word count k = asm.fault cause token) ∨
      asm.withKeyword (some label) word count k =
        (asm.mapState (·.defineLabel label)).withKeyword none word count k' := by
  unfold withKeyword
  cases hword : Keyword.ofWord? word.text with
  | none => exact Or.inl ⟨_, _, rfl⟩
  | some keyword =>
    rw [hword, Option.any_some] at hplace
    refine Or.inr ?_
    dsimp only
    simp only [hplace, Bool.false_eq_true, if_false]
    rw [hk keyword _ hplace]
    rfl

/-- An instruction stands outside of all sections, or the label in front of it is defined first. -/
theorem instruction_unlabelled (asm : Assembler) (label : LabelDef) (word : Token)
    (args : List Expr) :
    (∃ cause token, asm.instruction (some label) word args = asm.fault cause token) ∨
      asm.instruction (some label) word args =
        (asm.mapState (·.defineLabel label)).instruction none word args := by
  obtain ⟨labels, hlayout⟩ := asm.state.defineLabel?_layout (some label)
  have hsection : (asm.state.defineLabel label).section? = asm.state.section? :=
    Assembler.section?_of_layout hlayout
  cases hs : asm.state.section? with
  | none =>
    refine Or.inl ⟨.instructionOutsideSection, word, ?_⟩
    simp only [instruction, mapState, fault, hs]
  | some body =>
    refine Or.inr ?_
    simp only [instruction, mapState, State.defineLabel?, hsection, hs]

/-- A line is refused as a whole, or its label is defined before the rest is carried out. -/
theorem execute_labelled (next : Option LineRunner) {line : Line} {label : LabelDef}
    (hlabel : line.label = some label) (hplace : line.marksPlace = true)
    (hd : line.isDirective = false) (asm : Assembler) :
    (∃ cause token, execute next line asm = asm.fault cause token) ∨
      execute next line asm =
        execute next line.unlabelled (asm.mapState (·.defineLabel label)) := by
  unfold Line.marksPlace at hplace
  unfold Line.isDirective at hd
  unfold execute Line.unlabelled
  dsimp only
  rw [hlabel]
  cases hop : line.operation with
  | none => exact Or.inr rfl
  | some op =>
    rw [hop] at hplace hd
    -- An operation that takes the label as a name of its own marks no place; behind all others
    -- the label is defined first.
    cases op with
    | directive word args => exact absurd hd (by simp)
    | assign word e => exact absurd hplace (by simp [Operation.marksPlace])
    | keyword word args =>
      have hword : (Keyword.ofWord? word.text).any Keyword.namesLabel = false := by
        simpa [Operation.marksPlace] using hplace
      apply asm.withKeyword_unlabelled label word args.length hword
      intro keyword asm' hk
      exact asm'.keywordBody_unlabelled next hk (some label) word args
    | options word args =>
      have hword : (Keyword.ofWord? word.text).any Keyword.namesLabel = false := by
        simpa [Operation.marksPlace] using hplace
      apply asm.withKeyword_unlabelled label word args.length hword
      intro keyword asm' _
      rfl
    | opcode word args => exact asm.instruction_unlabelled label word args
    | macroCall name args => exact Or.inr rfl

/-- The label in front of a line is defined before the line expands. -/
theorem expansion?_labelled {line : Line} {label : LabelDef} (hlabel : line.label = some label)
    (hplace : line.marksPlace = true) (asm : Assembler) :
    expansion? line asm = expansion? line.unlabelled (asm.mapState (·.defineLabel label)) := by
  unfold Line.marksPlace at hplace
  unfold expansion? Line.unlabelled
  dsimp only
  rw [hlabel]
  cases hop : line.operation with
  | none => rfl
  | some op =>
    rw [hop] at hplace
    cases op with
    | keyword word args =>
      dsimp only
      cases hword : Keyword.ofWord? word.text with
      | none => rfl
      | some keyword =>
        have hk : keyword.namesLabel = false := by
          simpa [Operation.marksPlace, hword] using hplace
        simp only [hk, Bool.false_eq_true, if_false, mapState, State.defineLabel?]
    | _ => rfl

/-! ## Lines that were parsed -/

/-- The runner of the lines one level deeper, if there is a level left. -/
def inner? : Nat → Option LineRunner
  | 0 => none
  | levels + 1 => some (runner levels)

/-- The moments of the lines that a parsed line expands to. -/
def innerHistory (line : Line) (asm : Assembler) : Nat → List Moment
  | 0 => []
  | levels + 1 =>
    match expansion? line asm with
    | some x => x.history (runner levels) (history levels)
    | none => []

theorem runner_eq (levels : Nat) : runner levels = runLine (inner? levels) := by
  cases levels with
  | zero => rfl
  | succ levels => rfl

theorem history_eq {line : Nat} {text : String} {asm asm' : Assembler} {parsed : Line}
    (h : parsed? line text asm = some (parsed, asm')) (levels : Nat) :
    history levels line text asm =
      Visit.around ⟨levels, line, text, asm⟩ (innerHistory parsed asm' levels) := by
  cases levels with
  | zero => rfl
  | succ levels =>
    rw [history, expansionOf?, h]
    rfl

theorem innerHistory_labelled {line : Line} {label : LabelDef} (hlabel : line.label = some label)
    (hplace : line.marksPlace = true) (asm : Assembler) (levels : Nat) :
    innerHistory line asm levels =
      innerHistory line.unlabelled (asm.mapState (·.defineLabel label)) levels := by
  cases levels with
  | zero => rfl
  | succ levels => rw [innerHistory, innerHistory, expansion?_labelled hlabel hplace]

/-- What every change keeps is kept by a parsed line, with all that it expands to. -/
theorem kept_execute {test : Visit → Prop} {Q : Stores → Stores → Prop} (hrefl : ∀ a, Q a a)
    (htrans : ∀ {a b c}, Q a b → Q b c → Q a c) (hplain : ∀ {a b}, Change none a b → Q a b)
    (hchange : ∀ {v : Visit} {a b}, test v → Change v.word? a b → Q a b)
    (levels : Nat) {line : Line} (asm : Assembler) (hnamed : line.IsNamed)
    (hline : ∀ {a b}, Change line.word? a b → Q a b)
    (hinner : ∀ m ∈ innerHistory line asm levels, test m.visit) :
    Q asm.state.stores (execute (inner? levels) line asm).state.stores := by
  have halone : Q asm.state.stores (execute none line asm).state.stores :=
    of_changes hrefl htrans hline (asm.changes_execute hnamed)
  -- Without a level left, or without an expansion, the line does no more than that.
  cases levels with
  | zero => exact halone
  | succ levels =>
    rw [inner?, execute_some]
    rw [innerHistory] at hinner
    cases hx : expansion? line asm with
    | none => exact halone
    | some x =>
      rw [hx] at hinner
      have hkept := kept_of_changes hrefl htrans hplain hchange
      have hbody := hkept.compositional.of_repeated (n := levels)
        (hkept.compositional.of_line levels) x.file x.start x.stop x.count x.opened hinner
      obtain ⟨hopen, hclose⟩ := asm.changes_expansion? (w := none) hnamed hx
      have hopened : Q asm.state.stores x.opened.state.stores :=
        of_changes hrefl htrans hplain hopen
      show Q _ (x.close _).state.stores
      rw [hclose]
      exact htrans hopened hbody.whole

/-- Diagnostics are never taken back. -/
theorem diagnostics_execute (levels : Nat) {line : Line} (asm : Assembler)
    (hnamed : line.IsNamed) :
    asm.state.diagnostics.size ≤ (execute (inner? levels) line asm).state.diagnostics.size := by
  have hgrown := kept_execute Grown.refl Grown.trans grown_of_change
    (fun (_ : True) h => grown_of_change h) levels asm hnamed grown_of_change fun _ _ => trivial
  exact hgrown.diagnostics.length_le

/-- Labels stay in the table as long as no `PURGE` is carried out. -/
theorem mem_labels_execute (levels : Nat) {line : Line} (asm : Assembler) (hnamed : line.IsNamed)
    (hline : line.word? ≠ some .purge)
    (hinner : ∀ m ∈ innerHistory line asm levels, m.visit.word? ≠ some .purge)
    {name : String} (h : name ∈ asm.state.labels.keys) :
    name ∈ (execute (inner? levels) line asm).state.labels.keys := by
  have hkept := kept_execute NamesKept.refl NamesKept.trans (namesKept_of_change (by simp))
    namesKept_of_change levels asm hnamed (namesKept_of_change hline) hinner
  exact hkept.labels.mem_keys h

end Assembler

/-! ## What becomes of a label -/

namespace Row

open Assembler

/-- The line that a text is parsed to without any report. -/
def parse? (row : Row) (asm : Assembler) : Option Line :=
  match (asm.atLine row.number).state.tokenize row.number row.text.toList with
  | (tokens, []) =>
    match parseLine tokens with
    | (.line parsed, []) => some parsed
    | _ => none
  | _ => none

/-- Whether a line that is carried out drops its label: it is a directive, or it delimits the
branches of a conditional block and its condition is not asked for. -/
def dropsLabel (row : Row) (parsed : Line) (asm : Assembler) : Bool :=
  parsed.isDirective || (row.written asm).any fun keyword => !asm.state.asks keyword

/-- The assembler that has come to a line and defined its label. -/
def labelled (row : Row) (label : LabelDef) (asm : Assembler) : Assembler :=
  (asm.atLine row.number).mapState (·.defineLabel label)

/-- The label of a line is new, and its full name enters the table before the rest of the line is
carried out. It stays there unless a `PURGE` is carried out. -/
structure Places (levels : Nat) (row : Row) (parsed : Line) (label : LabelDef) (full : String)
    (asm : Assembler) : Prop where
  qualified : asm.state.qualify label.name.text = some full
  fresh : full ∉ asm.state.labels.keys
  entered : full ∈ (row.labelled label asm).state.labels.keys
  rest : row.run levels asm = execute (inner? levels) parsed.unlabelled (row.labelled label asm)
  stays : (∀ m ∈ history levels row.number row.text asm, m.visit.word? ≠ some .purge) →
    full ∈ (row.run levels asm).state.labels.keys

variable {levels : Nat} {row : Row} {parsed : Line} {label : LabelDef} {asm : Assembler}

theorem read_of_parse? (h : row.parse? asm = some parsed) :
    (asm.atLine row.number).state.read row.number row.text =
      (.line parsed, (asm.atLine row.number).state) := by
  unfold parse? at h
  unfold State.read
  split at h
  · rename_i tokens htokens
    split at h
    · rename_i parsed' hparsed
      obtain rfl := Option.some.inj h
      rw [htokens]
      dsimp only
      rw [hparsed]
      simp [State.record]
    · exact absurd h (by simp)
  · exact absurd h (by simp)

/-- In a live branch, a line is parsed in full unless it is a delimiter that is not asked for its
condition. -/
theorem parsed?_of_parse? (hp : asm.Plain) (hlive : asm.state.conditionsTrue = true)
    (hword : (row.written asm).any (fun keyword => !asm.state.asks keyword) = false)
    (h : row.parse? asm = some parsed) :
    parsed? row.number row.text asm = some (parsed, asm.atLine row.number) := by
  apply parsed?_of_read _ (read_of_parse? h)
  cases hw : row.written asm with
  | none =>
    rw [asm.state.passOver?_of_plain hp.macroDefs hp.repeats, State.writtenKeyword?_eq_none hw]
    exact if_pos hlive
  | some keyword =>
    obtain ⟨word, hfound, -⟩ := State.writtenKeyword?_eq_some hw
    rw [hw, Option.any_some, Bool.not_eq_false'] at hword
    rw [asm.state.passOver?_of_delimiter hp.macroDefs hp.repeats hfound]
    exact if_pos hword

theorem run_of_parsed? {asm' : Assembler}
    (hparsed : parsed? row.number row.text asm = some (parsed, asm')) :
    row.run levels asm = execute (inner? levels) parsed asm' := by
  rw [run, runner_eq, runLine_of_parsed? _ hparsed]

/-! ### Labels that are dropped -/

theorem labels_delimiter (asm : Assembler) (next : Option LineRunner) {keyword : Keyword}
    (h : keyword ∈ blockWords) (label : Option LabelDef) (word : Token) (args : List Expr) :
    (asm.keywordBody next keyword label word args).state.labels = asm.state.labels := by
  simp only [List.mem_cons, List.not_mem_nil, or_false] at h
  -- No keyword of a conditional block expands, so a level more or less makes no difference.
  have hkept : ∀ keyword : Keyword, keyword.part.inLayout = false →
      (asm.keywordBody none keyword label word args).state.labels = asm.state.labels := fun _ hpart =>
    congrArg Layout.labels ((asm.differs_keywordBody _ label word args).layout hpart)
  rcases h with rfl | rfl | rfl | rfl
  · exact hkept .ifTrue rfl
  · exact hkept .elseIf rfl
  · exact hkept .elseAll rfl
  · exact hkept .endIf rfl

theorem labels_directive (next : Option LineRunner) {line : Line} (h : line.isDirective = true)
    (asm : Assembler) : (execute next line asm).state.labels = asm.state.labels := by
  unfold Line.isDirective at h
  unfold execute
  split at h
  · rename_i word args hop
    obtain ⟨_, _, hdirective⟩ := asm.directive_footprint word
    rw [hop]
    dsimp only
    rw [hdirective]
  · exact absurd h (by simp)

/-- A line that drops its label leaves all labels as they are. -/
theorem labels_of_dropsLabel (hp : asm.Plain) (hlive : asm.state.conditionsTrue = true)
    (hparse : row.parse? asm = some parsed) (h : row.dropsLabel parsed asm = true) :
    (row.run levels asm).state.labels = asm.state.labels := by
  cases hword : (row.written asm).any fun keyword => !asm.state.asks keyword with
  | true =>
    -- Only the word is kept of the line.
    obtain ⟨keyword, hw, hasks⟩ := (Option.any_eq_true _ _).1 hword
    obtain ⟨next, word, hrun⟩ : ∃ next word, row.run levels asm =
        (asm.atLine row.number).keywordBody next keyword none word [] :=
      run_unasked hp hw (by simpa using hasks)
    obtain ⟨_, hfound, -⟩ := State.writtenKeyword?_eq_some hw
    rw [hrun, labels_delimiter _ next (findKeyword?_eq_some hfound).2]
    rfl
  | false =>
    have hdirective : parsed.isDirective = true := by
      rw [dropsLabel, hword, Bool.or_false] at h
      exact h
    have hparsed := parsed?_of_parse? hp hlive hword hparse
    rw [run_of_parsed? hparsed, labels_directive _ hdirective]
    rfl

/-! ### Labels that are kept -/

/-- A label that was entered is there after the line, unless a `PURGE` is carried out. -/
theorem mem_labels_of_entered
    (hparsed : parsed? row.number row.text asm = some (parsed, asm.atLine row.number))
    (hlabel : parsed.label = some label) (hplace : parsed.marksPlace = true)
    (hpurge : ∀ m ∈ history levels row.number row.text asm, m.visit.word? ≠ some .purge)
    {full : String} (hentered : full ∈ (row.labelled label asm).state.labels.keys) :
    full ∈ (execute (inner? levels) parsed.unlabelled
      (row.labelled label asm)).state.labels.keys := by
  rw [history_eq hparsed, innerHistory_labelled hlabel hplace] at hpurge
  apply mem_labels_execute levels _ parsed.isNamed_unlabelled
  · have hfirst := hpurge ⟨⟨levels, row.number, row.text, asm⟩, false⟩ (by simp [Visit.around])
    rw [Visit.word?, hparsed] at hfirst
    exact hfirst
  · intro m hm
    apply hpurge m
    simp only [Visit.around, List.cons_append, List.mem_cons, List.mem_append]
    exact Or.inr (Or.inl hm)
  · exact hentered

/-- A line that does not drop its label defines it, unless something is reported. -/
theorem places_of_parsed?
    (hparsed : parsed? row.number row.text asm = some (parsed, asm.atLine row.number))
    (hlabel : parsed.label = some label) (hplace : parsed.marksPlace = true)
    (hd : parsed.isDirective = false) :
    asm.state.diagnostics.size < (row.run levels asm).state.diagnostics.size ∨
      ∃ full, row.Places levels parsed label full asm := by
  rcases execute_labelled (inner? levels) hlabel hplace hd (asm.atLine row.number) with
    ⟨cause, token, hrefused⟩ | hrest
  · left
    have hmore := (asm.atLine row.number).state.size_diagnostics_fault cause token
    rw [run_of_parsed? hparsed, hrefused]
    exact hmore ▸ Nat.lt_succ_self _
  · have hrun : row.run levels asm =
        execute (inner? levels) parsed.unlabelled (row.labelled label asm) :=
      (run_of_parsed? hparsed).trans hrest
    rcases (asm.atLine row.number).state.defineLabel_cases label with
      ⟨cause, hreported⟩ | ⟨full, hqualified, hfresh, hentered⟩
    · left
      -- The report of the label is still there when the rest has been carried out.
      have hgrown := diagnostics_execute levels (row.labelled label asm)
        parsed.isNamed_unlabelled
      have hmore : (row.labelled label asm).state.diagnostics.size =
          asm.state.diagnostics.size + 1 := by
        rw [labelled, mapState, hreported]
        exact State.size_diagnostics_fault _ cause label.name
      rw [hrun]
      omega
    · right
      refine ⟨full, hqualified, hfresh, hentered, hrun, ?_⟩
      intro hpurge
      rw [hrun]
      exact mem_labels_of_entered hparsed hlabel hplace hpurge hentered

/-- **No line that is carried out loses its label without a report**, but for two kinds of lines,
which leave all labels as they are: directives, and delimiters of which only the word is kept. -/
theorem label_placed_or_reported (levels : Nat) (row : Row) (asm : Assembler) (parsed : Line)
    (label : LabelDef) (hp : asm.Plain) (hlive : asm.state.conditionsTrue = true)
    (hparse : row.parse? asm = some parsed) (hlabel : parsed.label = some label)
    (hplace : parsed.marksPlace = true) :
    if row.dropsLabel parsed asm then (row.run levels asm).state.labels = asm.state.labels
    else asm.state.diagnostics.size < (row.run levels asm).state.diagnostics.size ∨
      ∃ full, row.Places levels parsed label full asm := by
  cases hdrops : row.dropsLabel parsed asm with
  | true => exact labels_of_dropsLabel hp hlive hparse hdrops
  | false =>
    obtain ⟨hd, hword⟩ := Bool.or_eq_false_iff.1 hdrops
    have hparsed := parsed?_of_parse? hp hlive hword hparse
    exact places_of_parsed? hparsed hlabel hplace hd

/-- A section with a label. -/
def openSection : Assembler :=
  ((new {} (.memory {})).assembleLine 1 " SECTION \"a\",ROM0").assembleLine 2 "main:"

/-- A local label in front of data. -/
def localLabel : Row := ⟨3, ".loop: db 1"⟩

theorem label_placed_localLabel : ∃ parsed label,
    localLabel.parse? openSection = some parsed ∧ parsed.label = some label ∧
      parsed.marksPlace = true ∧ localLabel.Places 0 parsed label "main.loop" openSection := by
  have hlive : (openSection.state.macroDefs = [] ∧ openSection.state.repeats = []) ∧
      openSection.state.conditionsTrue = true := by
    decide +kernel
  have hline : ((localLabel.parse? openSection).bind (·.label)).isSome = true ∧
      (localLabel.parse? openSection).all Line.marksPlace = true ∧
      (localLabel.parse? openSection).any (localLabel.dropsLabel · openSection) = false ∧
      ((localLabel.parse? openSection).bind (·.label)).bind
        (openSection.state.qualify ·.name.text) = some "main.loop" := by
    decide +kernel
  have hsilent : (localLabel.run 0 openSection).state.diagnostics.size =
      openSection.state.diagnostics.size := by
    decide +kernel
  obtain ⟨hlabelled, hplace, hkept, hname⟩ := hline
  obtain ⟨label, hlabel⟩ := Option.isSome_iff_exists.1 hlabelled
  obtain ⟨parsed, hparse, hlabel⟩ := Option.bind_eq_some_iff.1 hlabel
  rw [hparse] at hplace hkept hname
  have hresult := label_placed_or_reported 0 localLabel openSection parsed label
    ⟨hlive.1.1, hlive.1.2⟩ hlive.2 hparse hlabel hplace
  rw [Option.any_some] at hkept
  rw [hkept] at hresult
  obtain ⟨full, hfull⟩ := hresult.resolve_left (by rw [hsilent]; exact Nat.lt_irrefl _)
  rw [Option.bind_some, hlabel, Option.bind_some, hfull.qualified] at hname
  obtain rfl := Option.some.inj hname
  exact ⟨parsed, label, hparse, hlabel, hplace, hfull⟩

/-- The label of a live line is in the table when nothing is reported and nothing purged. -/
def KeepsLabel (row : Row) (asm : Assembler) : Prop :=
  ∀ (levels : Nat) (parsed : Line) (label : LabelDef),
    asm.Plain → asm.state.conditionsTrue = true → row.parse? asm = some parsed →
      parsed.label = some label → parsed.marksPlace = true →
      (∀ m ∈ history levels row.number row.text asm, m.visit.word? ≠ some .purge) →
      asm.state.diagnostics.size < (row.run levels asm).state.diagnostics.size ∨
        ∃ full, asm.state.qualify label.name.text = some full ∧
          full ∈ (row.run levels asm).state.labels.keys

theorem not_keepsLabel {row : Row} {asm : Assembler}
    (h : ((asm.state.macroDefs = [] ∧ asm.state.repeats = []) ∧ asm.state.conditionsTrue = true) ∧
      (row.parse? asm).any (fun parsed => parsed.marksPlace && parsed.label.isSome) = true ∧
      (∀ m ∈ history 0 row.number row.text asm, m.visit.word? ≠ some .purge) ∧
      (row.run 0 asm).state.diagnostics.size = asm.state.diagnostics.size ∧
      (row.run 0 asm).state.labels.keys = []) : ¬ row.KeepsLabel asm := by
  obtain ⟨⟨⟨hm, hr⟩, hlive⟩, hlabel, hpurge, hsilent, hlabels⟩ := h
  intro hkeeps
  obtain ⟨parsed, hparse, hplace⟩ := (Option.any_eq_true _ _).1 hlabel
  obtain ⟨hplace, hsome⟩ := Bool.and_eq_true_iff.1 hplace
  obtain ⟨label, hlabel⟩ := Option.isSome_iff_exists.1 hsome
  rcases hkeeps 0 parsed label ⟨hm, hr⟩ hlive hparse hlabel hplace hpurge with
    hmore | ⟨full, -, hfull⟩
  · omega
  · rw [hlabels] at hfull
    exact absurd hfull (by simp)

/-- A section and the live branch of a conditional block. -/
def openBranch : Assembler :=
  ((new {} (.memory {})).assembleLine 1 " SECTION \"a\",ROM0").assembleLine 2 " IF 1"

/-- A label is lost in front of the end of a conditional block, and in front of a directive. -/
theorem label_lost_without_report :
    ¬ Row.KeepsLabel ⟨3, "foo: ENDC"⟩ openBranch ∧
      ¬ Row.KeepsLabel ⟨3, "foo: #EXTENSIONS"⟩ openBranch := by
  constructor
  · exact not_keepsLabel (by decide +kernel)
  · exact not_keepsLabel (by decide +kernel)

end Row

end Sm83Asm
