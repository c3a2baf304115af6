import Sm83Asm.Proofs.Execute.Reports
import Sm83Asm.Proofs.Instruction.Reports
import Sm83Asm.Proofs.Line.Columns
import Sm83Asm.Proofs.Token.Reports

set_option autoImplicit false

/-!
# What a line reports

The reports of one line come from its tokens, from its syntax and from carrying it out. Those of
the three stages differ, those of the lexer stand at different columns, the parser reports once, and
carrying out a line reports at the tokens that its parts were made from.

There are two exceptions. A literal in which the same goes wrong twice says so twice, and an operand
that is computed to choose the variant of its instruction, or to find the place of a jump target,
is computed again to encode it. In lines without these exceptions no report says the same as another
one (`reported_once`); the second exception is enough to say the same twice
(`operand_reported_twice`).
-/

namespace Sm83Asm

open Sm83Asm.Expr

/-- Whether a line may carry out further lines: a macro call, `INCLUDE` or `ENDR`. -/
def Line.goesDeeper (line : Line) : Bool :=
  match line.operation with
  | some (.macroCall _ _) => true
  | some (.keyword word _) => (Keyword.ofWord? word.text).any [.includeFile, .endr].contains
  | _ => false

/-- Nothing is said before the operands of an instruction are encoded. -/
def Operation.ProbesQuietly (st : State) : Operation → Prop
  | .opcode word args => st.scope.ProbesQuietly word args st.random
  | _ => True

instance (st : State) (op : Operation) : Decidable (op.ProbesQuietly st) := by
  unfold Operation.ProbesQuietly
  split
  · infer_instance
  · infer_instance

/-- A line without the two exceptions: no literal in it says the same twice, and nothing is said
before operands are encoded. -/
structure Line.Unrepeated (st : State) (line : Line) : Prop where
  literals : ∀ op ∈ line.operation, ∀ t ∈ allLiterals op.operands, st.SaysOnce t
  probes : ∀ op ∈ line.operation, op.ProbesQuietly (st.defineLabel? line.label)

instance (st : State) (line : Line) : Decidable (line.Unrepeated st) :=
  decidable_of_iff
    ((∀ op ∈ line.operation, ∀ t ∈ allLiterals op.operands, st.SaysOnce t) ∧
      ∀ op ∈ line.operation, op.ProbesQuietly (st.defineLabel? line.label))
    ⟨fun h => ⟨h.1, h.2⟩, fun h => ⟨h.1, h.2⟩⟩

namespace State

variable {st : State}

theorem sameTexts_closeLabel (st : State) : st.SameTexts st.closeLabel := by
  unfold closeLabel
  split
  · exact .refl st
  · exact ⟨rfl, rfl, rfl, rfl⟩

theorem sameTexts_defineLabel? (st : State) (label : Option LabelDef) :
    st.SameTexts (st.defineLabel? label) := by
  cases label with
  | none => exact .refl st
  | some label =>
    unfold defineLabel? defineLabel
    dsimp only
    split
    · split
      · exact ⟨rfl, rfl, rfl, rfl⟩
      · split
        · exact ⟨rfl, rfl, rfl, rfl⟩
        · exact (sameTexts_closeLabel st).trans ⟨rfl, rfl, rfl, rfl⟩
    · exact ⟨rfl, rfl, rfl, rfl⟩

/-- The columns of the name of a label. -/
abbrev labelColumns (label : Option LabelDef) : List Nat :=
  label.toList.map fun label => label.name.column

theorem logs_defineLabel? (st : State) (label : Option LabelDef) :
    Logs (.among (labelColumns label)) st (st.defineLabel? label) := by
  cases label with
  | none => exact .refl st
  | some label => exact logs_defineLabel

end State

namespace Assembler

open State

variable {asm : Assembler} {word : Token} {args : List Expr} {keyword : Keyword}
  {label : Option LabelDef}

/-! ## Keywords -/

theorem range_sublist (range : List Expr) :
    (range[0]?.toList ++ range[1]?.toList).Sublist range := by
  match range with
  | [] => exact .refl []
  | [e] => exact .refl [e]
  | e :: e' :: rest => exact ((List.nil_sublist rest).cons_cons e').cons_cons e

theorem logs_includeBytes {e : Expr} {range : List Expr}
    (h : ClearCall asm.state word (e :: range)) :
    Logs (callPlaces word (e :: range)) asm.state
      (asm.includeBytes word e range[0]? range[1]?).state := by
  unfold includeBytes
  split
  · exact logs_fault_word
  · have hsome := (range_sublist range).cons_cons e
    have hargs := h.arguments.sublist hsome
    have hcolumns := (allColumns_sublist hsome).subset
    have hpath := computes_text hargs.head
    have hrange := hpath.texts.allClear hargs.tail
    have hfirst := computes_numberD 0
      (hrange.sublist (List.sublist_append_left _ range[1]?.toList))
    have hcount := computes_numberD 0 (hfirst.texts.allClear
      (hrange.sublist (List.sublist_append_right range[0]?.toList _)))
    have hall := hpath.cons (hfirst.append hcount hargs.tail.distinct) hargs.distinct
    dsimp only
    split
    · exact (hall.then_used (logs_fault_used List.mem_cons_self rfl)).of_arguments
        fun _ _ hc => hcolumns hc
    · rw [apply_ite Assembler.state]
      refine .ite ?_ (hall.toLogs.then_word (fun _ _ hc => hcolumns hc.1) logs_fault_word h.apart)
      exact (hall.toLogs.mapBytes (· ++ _)).of_arguments fun _ _ hc => hcolumns hc.1

/-- A keyword that carries out no further lines reports at its tokens. -/
theorem logs_keywordBody (next : Option LineRunner)
    (hstays : keyword ≠ .includeFile ∧ keyword ≠ .endr) (h : ClearCall asm.state word args) :
    Logs (callPlaces word args) asm.state
      (asm.keywordBody next keyword label word args).state := by
  unfold keywordBody
  split
  · exact logs_data h
  · exact logs_data h
  · exact logs_data h
  · exact logs_reserve h
  · exact logs_equ h
  · exact logs_equs h
  · exact logs_assign h
  · exact logs_field h
  · exact logs_field h
  · exact logs_field h
  · exact .of_eq rfl rfl rfl
  · exact (logs_number h).quietly rfl rfl rfl
  · exact logs_mapText h
  · exact logs_beginIf h
  · exact logs_nextIf h
  · exact logs_lastIf
  · exact logs_endIf
  · exact logs_beginMacro
  · exact logs_endMacro
  · exact logs_shift h
  · exact logs_beginRepeat h
  · exact absurd rfl hstays.2
  · exact logs_beginUnion
  · exact logs_nextMember
  · exact logs_endUnion
  · exact absurd rfl hstays.1
  · exact logs_includeBytes h
  · exact logs_exportAll h
  · exact logs_exportAll h
  · exact logs_purge h
  · exact logs_beginSection h
  · exact logs_pushSection
  · exact logs_popSection
  · exact logs_popOptions
  · exact logs_userMessage h
  · exact logs_userMessage h
  · exact logs_printValue .printt h
  · exact logs_printValue .printv h
  · exact logs_printValue .printi h
  · exact logs_printValue .printf h
  · exact logs_reseed h
  · exact .refl _

theorem logs_optionBody {args : List Token} (h : (args.map Token.column).Nodup) :
    Logs (.among (args.map Token.column)) asm.state (asm.optionBody keyword args).state := by
  unfold optionBody
  split
  · exact logs_pushOptions h
  · exact logs_changeOptions h

/-- The label in front of a keyword reports before the keyword does. -/
theorem logs_withKeyword {columns : List Nat} (count : Nat) {k : Keyword → Assembler → Assembler}
    (hdistinct : (labelColumns label ++ word.column :: columns).Nodup)
    (hk : ∀ keyword asm', Keyword.ofWord? word.text = some keyword →
      asm.state.SameTexts asm'.state →
        Logs (.among (word.column :: columns)) asm'.state (k keyword asm').state) :
    Logs (.among (labelColumns label ++ word.column :: columns)) asm.state
      (asm.withKeyword label word count k).state := by
  have hfault : ∀ (asm : Assembler) (cause : EvaluationCause),
      Logs (.among (word.column :: columns)) asm.state (asm.fault cause word).state :=
    fun asm cause => .fault fun _ _ => List.mem_cons_self
  have hright : ∀ c o, Places.among (word.column :: columns) c o →
      Places.among (labelColumns label ++ word.column :: columns) c o :=
    (Places.splits_among hdistinct).right
  have hgo : ∀ keyword asm', Keyword.ofWord? word.text = some keyword →
      asm.state.SameTexts asm'.state → Logs (.among (word.column :: columns)) asm'.state
        (if keyword.checksOwnArity || keyword.arity.accepts count then k keyword asm'
          else asm'.fault (.keywordArity keyword) word).state := by
    intro keyword asm' hword htexts
    rw [apply_ite Assembler.state]
    exact .ite (hk keyword asm' hword htexts) (hfault asm' _)
  unfold withKeyword
  split
  · exact (hfault asm _).mono hright
  · rename_i keyword hword
    dsimp only
    by_cases hnames : keyword.namesLabel
    · rw [if_pos hnames]
      exact (hgo keyword asm hword (.refl _)).mono hright
    · rw [if_neg hnames]
      exact (logs_defineLabel? asm.state label).trans
        (hgo keyword (asm.mapState (·.defineLabel? label)) hword
          (sameTexts_defineLabel? asm.state label))
        (Places.splits_among hdistinct)

/-! ## Lines -/

theorem logs_directive : Logs (.among (word.column :: allColumns args)) asm.state
    (asm.directive word).state := by
  unfold directive
  split
  · exact .of_eq rfl rfl rfl
  · exact .of_eq rfl rfl rfl
  · exact .fault fun _ _ => List.mem_cons_self

theorem logs_instruction (hdistinct : (labelColumns label ++ word.column :: allColumns args).Nodup)
    (h : ClearCall asm.state word args)
    (hquiet : (asm.state.defineLabel? label).scope.ProbesQuietly word args
      (asm.state.defineLabel? label).random) :
    Logs (.among (labelColumns label ++ word.column :: allColumns args)) asm.state
      (asm.instruction label word args).state := by
  have hsplit := Places.splits_among hdistinct
  have hclear := (sameTexts_defineLabel? asm.state label).allClear h.arguments
  have hcode := (computes_emitting (Scope.once_encode _ hclear hquiet)).toLogs
  unfold instruction mapState
  dsimp only
  split
  · exact .fault fun _ _ => hsplit.right _ .own List.mem_cons_self
  · refine (logs_defineLabel? asm.state label).trans ?_ hsplit
    split
    · rename_i bytes st heq
      rw [heq] at hcode
      exact hcode.mapBytes _
    · rename_i st heq
      rw [heq] at hcode
      exact hcode

/-- A line that carries out no further lines reports nothing twice, each time at one of the tokens
that it was made from. -/
theorem logs_execute (next : Option LineRunner) {line : Line} (hdistinct : line.columns.Nodup)
    (hstays : line.goesDeeper = false) (h : line.Unrepeated asm.state) :
    Logs (.among line.columns) asm.state (execute next line asm).state := by
  obtain ⟨start, label, operation, comment⟩ := line
  cases operation with
  | none =>
    exact (logs_defineLabel? asm.state label).mono fun c o => List.mem_append_left _
  | some op =>
    have hcolumns : Line.columns ⟨start, label, some op, comment⟩ =
        labelColumns label ++ op.columns := by
      simp [Line.columns]
    rw [hcolumns] at hdistinct ⊢
    have hright := (Places.splits_among hdistinct).right
    have hliterals : ∀ t ∈ allLiterals op.operands, asm.state.SaysOnce t := h.literals op rfl
    have hown := hdistinct.of_append_right
    cases op with
    | directive word args => exact logs_directive.mono hright
    | assign word e => exact (logs_assign (.of_columns hown hliterals)).mono hright
    | keyword word args =>
      have hclear := ClearCall.of_columns hown hliterals
      refine logs_withKeyword args.length hdistinct fun keyword asm' hword htexts => ?_
      refine logs_keywordBody next ?_ (htexts.clearCall hclear)
      simpa [Line.goesDeeper, hword] using hstays
    | options word args =>
      refine logs_withKeyword args.length hdistinct fun keyword asm' hword htexts => ?_
      exact (logs_optionBody (List.nodup_cons.1 hown).2).mono fun c o => List.mem_cons_of_mem _
    | opcode word args =>
      exact logs_instruction hdistinct (.of_columns hown hliterals) (h.probes _ rfl)
    | macroCall name args => exact absurd hstays (by simp [Line.goesDeeper])

/-! ## Lines of text -/

/-- Reading a line reports nothing twice, and nothing that belongs to the evaluator. -/
theorem exists_reports_statement (line : Nat) (text : String) (st : State) : ∃ reports,
    (statement line text st).2 = st.record reports ∧ (reports.map Report.key).Nodup ∧
      ∀ r ∈ reports, r.cause.stage ≠ .evaluator := by
  have hlexical : ∀ r ∈ (st.tokenize line text.toList).2, r.cause.stage = .lexer :=
    fun r hr => st.stage_of_mem_tokenize line text.toList hr
  have hkeys : ((st.tokenize line text.toList).2.map Report.key).Nodup := by
    have hcolumns := st.nodup_columns_tokenize line text.toList
    have hkey : Report.column? = (fun key => key.2.2.map Token.column) ∘ Report.key := rfl
    rw [hkey, ← List.map_map] at hcolumns
    exact hcolumns.of_map _
  unfold statement
  dsimp only
  split
  · exact ⟨[], by simp [State.record], List.nodup_nil, by simp⟩
  · rcases parseLine_cases (st.tokenize line text.toList).1 with
      ⟨stop, cause, token, hparse⟩ | ⟨parsed, hparse, -⟩
    · rw [hparse]
      refine ⟨(st.tokenize line text.toList).2 ++ [.grammar cause token], ?_, ?_, ?_⟩
      · simp [State.record]
      · rw [List.map_append]
        refine hkeys.append (List.nodup_singleton _) ?_
        -- The parser reports once, and at another stage than the lexer.
        intro key hkey hgrammar
        obtain ⟨r, hr, rfl⟩ := List.mem_map.1 hkey
        have hstage : r.cause.stage = .parser := congrArg Prod.fst (List.mem_singleton.1 hgrammar)
        exact absurd ((hlexical r hr).symm.trans hstage) (by decide)
      · intro r hr
        rcases List.mem_append.1 hr with hr | hr
        · simp [hlexical r hr]
        · obtain rfl := List.mem_singleton.1 hr
          simp [Report.grammar, Cause.stage]
    · rw [hparse]
      exact ⟨_, by simp [State.record], hkeys, fun r hr => by simp [hlexical r hr]⟩

/-- The diagnostics that a line adds. -/
def added (asm : Assembler) (line : Nat) (text : String) : List Diagnostic :=
  (asm.assembleLine line text).state.diagnostics.toList.drop asm.state.diagnostics.size

/-- Two diagnostics that say the same have the same key. -/
abbrev addedKeys (asm : Assembler) (line : Nat) (text : String) :
    List (Stage × String × Option Token) :=
  (asm.added line text).map fun d => d.report.key

theorem addedKeys_eq {asm : Assembler} {line : Nat} {text : String} {reports : List Report}
    {file : String} {number : Nat} (h : (asm.assembleLine line text).state.diagnostics =
      asm.state.diagnostics ++ (reports.map fun r => (⟨r, file, number⟩ : Diagnostic)).toArray) :
    asm.addedKeys line text = reports.map Report.key := by
  unfold addedKeys added
  rw [h]
  simp

/-- A line that carries out no further lines, and in which the two exceptions do not occur, adds no
two diagnostics with the same stage, message and token. -/
theorem reported_once (asm : Assembler) (line : Nat) (text : String)
    (h : ∀ p ∈ parsed? line text asm,
      p.1.goesDeeper = false ∧ p.1.Unrepeated p.2.state) :
    (asm.addedKeys line text).Nodup := by
  have hrun : ∃ next, asm.assembleLine line text = runLine next line text asm := by
    unfold assembleLine
    cases asm.state.config.maxDepth with
    | zero => exact ⟨none, rfl⟩
    | succ levels => exact ⟨some (runner levels), rfl⟩
  obtain ⟨next, hrun⟩ := hrun
  obtain ⟨reports, hread, hkeys, hstage⟩ :=
    exists_reports_statement line text { asm.state with line }
  cases hparsed : parsed? line text asm with
  | none =>
    rw [runLine_eq_of_not_parsed next hparsed, hread] at hrun
    rw [addedKeys_eq (congrArg (fun asm => asm.state.diagnostics) hrun)]
    exact hkeys
  | some p =>
    obtain ⟨parsed, asm'⟩ := p
    obtain ⟨hstays, hunrepeated⟩ := h _ hparsed
    obtain ⟨st, hst, rfl⟩ := of_parsed? hparsed
    obtain rfl : st = State.record { asm.state with line } reports := by
      rw [← hread, hst]
    have hlogs := logs_execute next (nodup_columns_statement hst) hstays hunrepeated
    obtain ⟨-, -, more, honce, hadded⟩ := hlogs
    have hall : (asm.assembleLine line text).state.diagnostics = asm.state.diagnostics ++
        ((reports ++ more).map fun r => (⟨r, asm.state.file, line⟩ : Diagnostic)).toArray := by
      rw [hrun, runLine_of_parsed? next hparsed, hadded]
      simp [State.record]
    rw [addedKeys_eq hall, List.map_append]
    refine hkeys.append honce.distinct ?_
    -- What is said while the line is carried out belongs to the evaluator.
    intro key hkey hkey'
    obtain ⟨r, hr, rfl⟩ := List.mem_map.1 hkey
    obtain ⟨r', hr', heq⟩ := List.mem_map.1 hkey'
    obtain ⟨cause, token, rfl, -⟩ := honce.inside r' hr'
    exact hstage r hr (congrArg Prod.fst heq).symm

/-- The first and the last item fail alike and the other one does not fit; each is said once. -/
theorem reported_once_threeFaults :
    let asm := (new {} (.memory {})).runAll [.text "a.asm" " SECTION \"a\",ROM0\n"]
    (asm.addedKeys 2 " db 1/0,300,2/0").length = 3 ∧
      (asm.addedKeys 2 " db 1/0,300,2/0").Nodup :=
  ⟨by decide +kernel, reported_once _ _ _ (by decide +kernel)⟩

/-- The index of `BIT` is computed to choose the variant and again to encode it, so the division by
zero in it is said twice. -/
theorem operand_reported_twice :
    ¬ ∀ (config : Config) (files : FileStore) (sources : List Source) (line : Nat) (text : String),
      let asm := (new config files).runAll sources
      (∀ p ∈ parsed? line text asm, p.1.goesDeeper = false) → (asm.addedKeys line text).Nodup := by
  intro h
  have hfixed := h {} (.memory {}) [.text "a.asm" " SECTION \"a\",ROM0\n"] 2 " bit 1/0,b"
    (by decide +kernel)
  exact absurd hfixed (by decide +kernel)

end Assembler

end Sm83Asm
