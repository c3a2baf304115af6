import Sm83Asm.Proofs.Execute.Change
import Sm83Asm.Proofs.Layout.Lines
import Sm83Asm.Proofs.Line.Grammar
import Sm83Asm.Proofs.Line.Passed
import Sm83Asm.Proofs.Token.Lossless

set_option autoImplicit false

/-!
# Changes along a run

What each line and each expansion does to the stores of the state, in terms of changes, and with
the keyword that the line carries out (`Visit.word?`).

Main statement: a relation that every change keeps is kept by whole runs (`kept_of_changes`).
-/

namespace Sm83Asm

open Stores

/-- The keyword that a line carries out: none when the number of arguments is wrong. The
assignment `=` stands for `SET`. -/
def Line.word? (line : Line) : Option Keyword :=
  let accepted (word : Token) (count : Nat) : Option Keyword :=
    (Keyword.ofWord? word.text).filter fun k => k.checksOwnArity || k.arity.accepts count
  match line.operation with
  | some (.assign _ _) => some .set
  | some (.keyword word args) => accepted word args.length
  | some (.options word args) => (accepted word args.length).filter Keyword.takesRawText
  | _ => none

/-- A keyword with expressions behind it, in the number that it takes. -/
structure Line.IsKeyword (line : Line) (keyword : Keyword) (word : Token) (args : List Expr) :
    Prop where
  operation : line.operation = some (.keyword word args)
  spelled : Keyword.ofWord? word.text = some keyword
  accepted : (keyword.checksOwnArity || keyword.arity.accepts args.length) = true

theorem Line.IsKeyword.word?_eq {line : Line} {keyword : Keyword} {word : Token}
    {args : List Expr} (h : line.IsKeyword keyword word args) : line.word? = some keyword := by
  unfold Line.word?
  rw [h.operation]
  dsimp only
  rw [h.spelled, Option.filter_some, if_pos h.accepted]

/-- A line carries out a keyword with expressions, an assignment or options. -/
theorem Line.word?_cases {line : Line} {keyword : Keyword} (h : line.word? = some keyword) :
    (∃ word args, line.IsKeyword keyword word args) ∨
      (keyword = .set ∧ ∃ word e, line.operation = some (.assign word e)) ∨
      keyword.takesRawText = true := by
  unfold Line.word? at h
  split at h
  · rename_i word e hop
    exact Or.inr (Or.inl ⟨(Option.some.inj h).symm, word, e, hop⟩)
  · rename_i word args hop
    obtain ⟨hk, harity⟩ := Option.filter_eq_some_iff.1 h
    exact Or.inl ⟨word, args, hop, hk, harity⟩
  · exact Or.inr (Or.inr (Option.filter_eq_some_iff.1 h).2)
  · exact absurd h (by simp)

/-- The label in front of a line, if there is one, has a name. -/
def Line.IsNamed (line : Line) : Prop := ∀ label ∈ line.label, label.name.text ≠ ""

namespace Assembler

variable (asm : Assembler)

/-! ## Operations -/

/-- `INCBIN` adds bytes to the open section, or reports. -/
theorem changes_includeBytes {w : Option Keyword} (word : Token) (e : Expr)
    (start length : Option Expr) :
    Changes w asm.state.stores (asm.includeBytes word e start length).state.stores := by
  unfold includeBytes
  cases hs : asm.state.section? with
  | none => exact asm.state.changes_fault _ _
  | some body =>
    obtain ⟨place, ho⟩ := asm.state.isOpen_of_section? hs
    have hpath := asm.state.changes_text (w := w) e
    have hfirst := (asm.state.text e).2.changes_numberD (w := w) 0 start
    have hcurrent := (asm.state.text e).2.layout_numberD 0 start
    rcases hf : (asm.state.text e).2.numberD 0 start with ⟨first, st⟩
    have hcount := st.changes_numberD (w := w) 0 length
    have hcurrent' := st.layout_numberD 0 length
    rcases hc : st.numberD 0 length with ⟨count, st'⟩
    rw [hf] at hfirst hcurrent
    rw [hc] at hcount hcurrent'
    have hargs : Changes w asm.state.stores st'.stores := (hpath.trans hfirst).trans hcount
    have hopen : st'.current = some place :=
      (congrArg Layout.current (hcurrent'.trans hcurrent)).trans ho.1
    simp only [hf, hc]
    split
    · exact hargs.trans (st'.changes_fault _ _)
    · generalize (if length.isSome = true then _ else _ : Nat) = past
      split
      · exact hargs.trans (st'.changes_emit hopen _)
      · exact hargs.trans (st'.changes_fault _ _)

theorem changes_includeFile {w : Option Keyword} (word : Token) (e : Expr) :
    Changes w asm.state.stores (asm.includeFile none word e).state.stores :=
  (asm.state.changes_text e).trans (State.changes_fault _ _ _)

theorem changes_endRepeat {w : Option Keyword} (word : Token) :
    Changes w asm.state.stores (asm.endRepeat none word).state.stores := by
  unfold endRepeat
  split
  · exact asm.state.changes_fault _ _
  · exact .refl
  · exact .single (.report _ _)

theorem changes_callMacro {w : Option Keyword} (name : Token) (args : List Token) :
    Changes w asm.state.stores (asm.callMacro none name args).state.stores := by
  unfold callMacro
  split
  · exact asm.state.changes_fault _ _
  · exact asm.state.changes_fault _ _

/-- What a keyword changes in the stores is a change that it may make. -/
theorem changes_keywordBody (keyword : Keyword) (label : Option LabelDef) (word : Token)
    (args : List Expr) :
    Changes (some keyword) asm.state.stores
      (asm.keywordBody none keyword label word args).state.stores := by
  unfold keywordBody
  split
  · exact State.changes_data _ _ _ _
  · exact State.changes_data _ _ _ _
  · exact State.changes_data _ _ _ _
  · exact State.changes_reserve _ _ _ _
  · exact State.changes_equ _ _ _ _
  · exact State.changes_equs _ _ _ _
  · exact State.changes_assign _ _ _ _ rfl
  · exact State.changes_field _ _ _ _ _
  · exact State.changes_field _ _ _ _ _
  · exact State.changes_field _ _ _ _ _
  · exact .refl
  · exact State.changes_number _ _
  · exact State.changes_mapText _ _ _
  · exact State.changes_beginIf _ _ _
  · exact State.changes_nextIf _ _ _
  · exact State.changes_lastIf _ _
  · exact State.changes_endIf _ _
  · exact State.changes_beginMacro _ _ _ _
  · exact State.changes_endMacro _ _
  · exact State.changes_shift _ _ _
  · exact State.changes_beginRepeat _ _ _
  · exact changes_endRepeat _ _
  · exact State.changes_beginUnion _ _ rfl
  · exact State.changes_nextMember _ _ rfl
  · exact State.changes_endUnion _ _ rfl
  · exact changes_includeFile _ _ _
  · exact changes_includeBytes _ _ _ _ _
  · exact State.changes_exportAll _ _
  · exact State.changes_exportAll _ _
  · exact State.changes_purge _ _ rfl
  · exact State.changes_beginSection _ _ _ _ rfl
  · exact State.changes_pushSection _ rfl
  · exact State.changes_popSection _ _ rfl
  · exact State.changes_popOptions _ _
  · exact State.changes_userMessage _ _ _ _
  · exact State.changes_userMessage _ _ _ _
  · exact State.changes_printValue _ _ _
  · exact State.changes_printValue _ _ _
  · exact State.changes_printValue _ _ _
  · exact State.changes_printValue _ _ _
  · exact State.changes_number _ _
  · exact .refl

theorem changes_optionBody {w : Option Keyword} (keyword : Keyword) (args : List Token) :
    Changes w asm.state.stores (asm.optionBody keyword args).state.stores := by
  unfold optionBody
  split
  · exact State.changes_pushOptions _ _
  · exact State.changes_changeOptions _ _

theorem changes_directive {w : Option Keyword} (word : Token) :
    Changes w asm.state.stores (asm.directive word).state.stores := by
  unfold directive
  split
  · exact .refl
  · exact .refl
  · exact asm.state.changes_fault _ _

/-- Defining the label in front of an operation, or leaving it to the operation. -/
theorem changes_labelled {w : Option Keyword} (own : Bool) {label : Option LabelDef}
    (hl : ∀ l ∈ label, l.name.text ≠ "") :
    Changes w asm.state.stores
      (if own then asm else asm.mapState (·.defineLabel? label)).state.stores := by
  cases own with
  | true => exact .refl
  | false => exact asm.state.changes_defineLabel? hl

/-- A label in front of a keyword is the first change. -/
theorem changes_withKeyword {w : Option Keyword} {label : Option LabelDef}
    (hl : ∀ l ∈ label, l.name.text ≠ "") (word : Token) (count : Nat)
    {body : Keyword → Assembler → Assembler}
    (hbody : ∀ keyword, Keyword.ofWord? word.text = some keyword →
      (keyword.checksOwnArity || keyword.arity.accepts count) = true → ∀ asm : Assembler,
        Changes w asm.state.stores (body keyword asm).state.stores) :
    Changes w asm.state.stores (asm.withKeyword label word count body).state.stores := by
  unfold withKeyword
  cases hk : Keyword.ofWord? word.text with
  | none => exact asm.state.changes_fault _ _
  | some keyword =>
    have hlabel := asm.changes_labelled (w := w) keyword.namesLabel hl
    dsimp only
    generalize (if keyword.namesLabel = true then asm else _) = asm' at hlabel ⊢
    split
    · rename_i harity
      exact hlabel.trans (hbody keyword hk harity asm')
    · exact hlabel.trans (asm'.state.changes_fault _ _)

/-- An instruction adds its label, its bytes and its patches, in this order. -/
theorem changes_instruction {w : Option Keyword} {label : Option LabelDef}
    (hl : ∀ l ∈ label, l.name.text ≠ "") (word : Token) (args : List Expr) :
    Changes w asm.state.stores (asm.instruction label word args).state.stores := by
  unfold instruction mapState
  dsimp only
  cases hs : asm.state.section? with
  | none => exact asm.state.changes_fault _ _
  | some body =>
    obtain ⟨place, ho⟩ := asm.state.isOpen_of_section? hs
    obtain ⟨labels, hlayout⟩ := asm.state.defineLabel?_layout label
    have hlabel := asm.state.changes_defineLabel? (w := w) hl
    dsimp only
    generalize asm.state.defineLabel? label = st at hlayout hlabel ⊢
    -- The label in front changes labels only, so the bytes go where they would have gone.
    have ho' : st.layout.IsOpen place body := by
      rw [hlayout]
      exact ho
    have hoffset : st.offset? = some body.bytes.size := by
      rw [State.offset?, State.section?, show st.current = some place from ho'.1]
      exact congrArg (Option.map _) ho'.2
    have hemit := st.changes_emitting (w := w) ho'.1 (st.scope.emits_encode ho'.1 hoffset word args)
    refine hlabel.trans ?_
    rcases hx : st.emitting (st.scope.encode word args) with ⟨_ | bytes, st'⟩
    · rw [hx] at hemit
      simpa only [Option.getD_none, State.emit_empty] using hemit
    · rw [hx] at hemit
      exact hemit

/-! ## Lines -/

/-- What a line does that expands to nothing, or that has no level left. -/
theorem changes_execute {line : Line} (hl : line.IsNamed) :
    Changes line.word? asm.state.stores (execute none line asm).state.stores := by
  unfold Line.IsNamed at hl
  unfold execute Line.word?
  rcases line.operation with _ | op
  · exact asm.state.changes_defineLabel? hl
  · cases op with
    | directive word args => exact asm.changes_directive word
    | assign word e => exact State.changes_assign _ _ _ _ rfl
    | keyword word args =>
      refine asm.changes_withKeyword hl word args.length fun keyword hk harity asm' => ?_
      simp only [hk, Option.filter_some, harity, if_true]
      exact asm'.changes_keywordBody keyword _ word args
    | options word args =>
      exact asm.changes_withKeyword hl word args.length fun keyword _ _ asm' =>
        asm'.changes_optionBody keyword args
    | opcode word args => exact asm.changes_instruction hl word args
    | macroCall name args =>
      exact (asm.state.changes_defineLabel? hl).trans
        (changes_callMacro (asm.mapState (·.defineLabel? line.label)) name args)

/-- What a keyword does, once the label in front of it has been defined, if it has to be. -/
theorem execute_of_isKeyword (next : Option LineRunner) {line : Line} {keyword : Keyword}
    {word : Token} {args : List Expr} (h : line.IsKeyword keyword word args) :
    execute next line asm =
      (if keyword.namesLabel then asm else asm.mapState (·.defineLabel? line.label)).keywordBody
        next keyword line.label word args := by
  unfold execute
  rw [h.operation]
  dsimp only [withKeyword]
  rw [h.spelled]
  dsimp only
  rw [if_pos h.accepted]

/-- An expansion begins with no more than a label and reports, and ends with nothing. -/
theorem changes_expansion? {w : Option Keyword} {line : Line} (hl : line.IsNamed) {x : Expansion}
    (h : expansion? line asm = some x) :
    Changes w asm.state.stores x.opened.state.stores ∧
      ∀ a, (x.close a).state.stores = a.state.stores := by
  obtain ⟨asm', hasm, hx⟩ := expansion?_cases h
  have hlabel : Changes w asm.state.stores asm'.state.stores := by
    rcases hasm with rfl | rfl
    · exact .refl
    · exact asm.state.changes_defineLabel? hl
  rcases hx with ⟨name, args, hx⟩ | hx | ⟨e, rfl⟩
  · obtain ⟨body, -, rfl⟩ := Option.map_eq_some_iff.1 hx
    exact ⟨hlabel, fun _ => rfl⟩
  · unfold ofRepeat? at hx
    split at hx
    · obtain rfl := Option.some.inj hx
      exact ⟨hlabel, fun _ => rfl⟩
    · exact absurd hx (by simp)
  · have hpath := hlabel.trans (asm'.state.changes_text e)
    unfold ofInclude
    dsimp only
    split
    · exact ⟨hpath.trans (State.changes_fault _ _ _), fun _ => rfl⟩
    · exact ⟨hpath, fun _ => rfl⟩

/-! ## Labels have names -/

/-- Whatever was replaced on the way, the tokens of a line are those of some text. -/
theorem exists_tokenize_eq (st : State) (line : Nat) (cs : List Char) :
    ∃ text, (st.tokenize line cs).1 = tokensOf line text (piecesFrom line st.cursor text) := by
  unfold State.tokenize
  dsimp only
  generalize st.config.maxSubstitutions = limit
  suffices ∀ left cs, ∃ text, (st.tokensWithin line limit left cs).1 =
      tokensOf line text (piecesFrom line st.cursor text) from this limit cs
  intro left
  induction left with
  | zero => exact fun cs => ⟨cs, rfl⟩
  | succ left ih =>
    intro cs
    rw [State.tokensWithin]
    split
    · rename_i tokens reports h
      exact ⟨cs, tokens_of_lex h⟩
    · rename_i next h
      obtain ⟨text, htext⟩ := ih next
      refine ⟨text, ?_⟩
      dsimp only
      split
      · exact htext
      · exact htext

theorem label_of_labelPart {tokens : List Token} {label : LabelDef}
    (h : label ∈ (Parser.labelPart tokens).1) :
    label.name ∈ tokens ∧ label.name.kind = .label := by
  unfold Parser.labelPart at h
  split at h
  · exact absurd h (by simp)
  · rename_i t ts
    split at h
    · rename_i hk
      have hname : label.name = t := by
        split at h
        · split at h
          · obtain rfl := Option.some.inj h
            rfl
          · obtain rfl := Option.some.inj h
            rfl
        · obtain rfl := Option.some.inj h
          rfl
      rw [hname]
      exact ⟨List.mem_cons_self, beq_iff_eq.1 hk⟩
    · exact absurd h (by simp)

/-- The label of a line is one of its tokens. -/
theorem label_of_line {eol : Token} {tokens : List Token} {line : Line} {label : LabelDef}
    (h : Parser.line eol tokens = .ok line) (hl : label ∈ line.label) :
    label.name ∈ tokens ∧ label.name.kind = .label := by
  obtain ⟨start, hstart, h⟩ := Parser.bind_eq_ok.1 h
  obtain ⟨⟨operation, rest⟩, -, h⟩ := Parser.bind_eq_ok.1 h
  have htokens : start.rest ⊆ tokens := by
    obtain ⟨t, -, ht⟩ := Parser.of_skip (Parser.map_eq_ok.2 ⟨start, hstart, rfl⟩)
    exact fun x hx => ht ▸ List.mem_cons_of_mem t hx
  have hlabel : label ∈ (Parser.labelPart start.rest).1 := by
    dsimp only at h
    split at h
    · obtain rfl := Except.ok.inj h
      exact hl
    · split at h
      · obtain rfl := Except.ok.inj h
        exact hl
      · exact absurd h (by simp [Parser.fail])
  obtain ⟨hmem, hkind⟩ := label_of_labelPart hlabel
  exact ⟨htokens hmem, hkind⟩

/-- Every line that is carried out has a name in its label, if it has a label. -/
theorem isNamed_of_statement {line : Nat} {text : String} {st st' : State} {parsed : Line}
    (h : statement line text st = (.line parsed, st')) : parsed.IsNamed := by
  intro label hlabel
  rcases statement_cases h with hpass | ⟨-, hparsed⟩
  · obtain ⟨start, word, keyword, -, -, rfl⟩ := State.bare_of_passOver? hpass
    exact absurd hlabel (by simp)
  · obtain ⟨cs, htokens⟩ := exists_tokenize_eq st line text.toList
    obtain ⟨inner, hinner, hrow⟩ := tokensOf_piecesFrom line st.cursor.context cs
    obtain ⟨hmem, hkind⟩ := label_of_line (of_parseLine hparsed) hlabel
    have hmem' := List.mem_of_mem_filter hmem
    rw [htokens.trans hinner] at hmem'
    intro hempty
    exact text_ne_of_label hrow hmem' hkind (by rw [hempty]; rfl)

/-! ## Runs -/

/-- The keyword that the line of a visit carries out. -/
def Visit.word? (v : Visit) : Option Keyword :=
  (parsed? v.line v.text v.before).bind (·.1.word?)

/-- Cutting a line into tokens and parsing it adds no more than reports. -/
theorem changes_statement {w : Option Keyword} (line : Nat) (text : String) (st : State) :
    Changes w st.stores (statement line text st).2.stores := by
  unfold statement
  dsimp only
  split
  · exact .refl
  · exact (st.changes_record _).trans (State.changes_record _ _)

/-- Reading a line adds reports at most, and its label has a name. -/
theorem changes_of_parsed? {w : Option Keyword} {line : Nat} {text : String}
    {asm asm' : Assembler} {parsed : Line} (h : parsed? line text asm = some (parsed, asm')) :
    parsed.IsNamed ∧ Changes w asm.state.stores asm'.state.stores := by
  have hst := changes_statement (w := w) line text { asm.state with line }
  obtain ⟨st, hparsed, rfl⟩ := of_parsed? h
  rw [hparsed] at hst
  exact ⟨isNamed_of_statement hparsed, hst⟩

/-- What a line does of its own account. -/
theorem changes_visit (v : Visit) :
    Changes v.word? v.before.state.stores
      (runLine none v.line v.text v.before).state.stores := by
  have hst := changes_statement (w := v.word?) v.line v.text { v.before.state with line := v.line }
  unfold Visit.word? parsed? at hst ⊢
  unfold runLine
  rcases hstatement : statement v.line v.text { v.before.state with line := v.line } with
    ⟨parsed | start | stop, st⟩
  · rw [hstatement] at hst
    have hnamed := isNamed_of_statement hstatement
    exact hst.trans (changes_execute { v.before with state := st } hnamed)
  · rw [hstatement] at hst
    exact hst
  · rw [hstatement] at hst
    exact hst

/-- The label in front of the line of a visit. -/
def Visit.label? (v : Visit) : Option LabelDef :=
  (parsed? v.line v.text v.before).bind (·.1.label)

/-- The assembler in which the keyword of a line is carried out: the label in front of the keyword
has been defined, if there is one. -/
def Visit.labelled (v : Visit) : Assembler :=
  match parsed? v.line v.text v.before with
  | some (parsed, asm) => asm.mapState (·.defineLabel? parsed.label)
  | none => v.before

/-- What is carried out goes on behind the label of the line. -/
theorem labelled_of_parsed? {v : Visit} {parsed : Line} {asm : Assembler}
    (hp : parsed? v.line v.text v.before = some (parsed, asm)) :
    v.labelled = asm.mapState (·.defineLabel? parsed.label) := by
  rw [Visit.labelled, hp]

theorem exists_layout_labelled (v : Visit) :
    ∃ labels, v.labelled.state.layout = { v.before.state.layout with labels } := by
  cases hp : parsed? v.line v.text v.before with
  | none =>
    rw [Visit.labelled, hp]
    exact ⟨_, rfl⟩
  | some found =>
    rw [labelled_of_parsed? hp, ← layout_of_parsed? hp]
    exact found.2.state.defineLabel?_layout found.1.label

/-- Without a label the line leaves the scope of local labels alone. -/
theorem globalLabel_labelled {v : Visit} (h : v.label? = none) :
    v.labelled.state.globalLabel = v.before.state.globalLabel := by
  cases hp : parsed? v.line v.text v.before with
  | none => rw [Visit.labelled, hp]
  | some found =>
    obtain ⟨diagnostics, hasm⟩ := parsed?_footprint hp
    have hlabel : found.1.label = none := by
      rw [Visit.label?, hp] at h
      exact h
    rw [labelled_of_parsed? hp, hlabel, hasm]
    rfl

/-- A keyword is carried out once the label in front of it has been defined. -/
theorem exists_keywordBody {v : Visit} {keyword : Keyword} (h : v.word? = some keyword)
    (hlabel : keyword.namesLabel = false) (hraw : keyword.takesRawText = false) :
    ∃ label word args, runLine none v.line v.text v.before =
      v.labelled.keywordBody none keyword label word args := by
  obtain ⟨⟨parsed, asm⟩, hp, hword⟩ := Option.bind_eq_some_iff.1 h
  rcases Line.word?_cases hword with ⟨word, args, hline⟩ | ⟨rfl, -⟩ | htext
  · refine ⟨parsed.label, word, args, ?_⟩
    rw [runLine_of_parsed? none hp, asm.execute_of_isKeyword none hline, hlabel,
      labelled_of_parsed? hp]
    rfl
  · exact absurd hlabel (by simp [Keyword.namesLabel])
  · exact absurd htext (by simp [hraw])

/-- A keyword is carried out in a layout in which no more than the label in front of it is new. -/
theorem runLine_of_word? {v : Visit} {keyword : Keyword} (h : v.word? = some keyword)
    (hlabel : keyword.namesLabel = false) (hraw : keyword.takesRawText = false) :
    ∃ (asm : Assembler) (label : Option LabelDef) (word : Token) (args : List Expr),
      (∃ labels, asm.state.layout = { v.before.state.layout with labels }) ∧
        runLine none v.line v.text v.before = asm.keywordBody none keyword label word args := by
  obtain ⟨label, word, args, hrun⟩ := exists_keywordBody h hlabel hraw
  exact ⟨v.labelled, label, word, args, exists_layout_labelled v, hrun⟩

/-- Of the keywords, only `ENDR` and `INCLUDE` expand. -/
theorem expansionOf?_of_word? {v : Visit} {keyword : Keyword} (h : v.word? = some keyword)
    (hraw : keyword.takesRawText = false) (hrepeat : keyword ≠ .endr)
    (hfile : keyword ≠ .includeFile) : expansionOf? v.line v.text v.before = none := by
  obtain ⟨⟨parsed, asm⟩, hp, hword⟩ := Option.bind_eq_some_iff.1 h
  rw [expansionOf?, hp]
  dsimp only [Option.bind_some] at hword ⊢
  unfold expansion?
  rcases Line.word?_cases hword with ⟨word, args, hline⟩ | ⟨-, word, e, hop⟩ | htext
  · rw [hline.operation]
    dsimp only
    rw [hline.spelled]
    dsimp only
    rw [if_pos hline.accepted]
    unfold ofKeyword?
    split
    · exact absurd rfl hrepeat
    · exact absurd rfl hfile
    · rfl
  · rw [hop]
  · exact absurd htext (by simp [hraw])

/-- An expansion begins behind the label of its line, and changes no store at its end. -/
theorem changes_expansionOf? {line : Nat} {text : String} {asm : Assembler} {x : Expansion}
    (hx : expansionOf? line text asm = some x) :
    Changes none asm.state.stores x.opened.state.stores ∧
      ∀ a, (x.close a).state.stores = a.state.stores := by
  obtain ⟨⟨parsed, asm'⟩, hp, hx⟩ := Option.bind_eq_some_iff.1 hx
  obtain ⟨hnamed, hparsed⟩ := changes_of_parsed? (w := none) hp
  obtain ⟨hopen, hclose⟩ := asm'.changes_expansion? (w := none) hnamed hx
  exact ⟨hparsed.trans hopen, hclose⟩

/-- What lines keep of their own account is kept by whole runs, if it is also kept by the changes
that need no keyword: an expansion makes no others as it begins. -/
theorem kept_of_visits {test : Visit → Prop} {Q : Stores → Stores → Prop} (hrefl : ∀ a, Q a a)
    (htrans : ∀ {a b c}, Q a b → Q b c → Q a c) (hchange : ∀ {a b}, Change none a b → Q a b)
    (hvisit : ∀ v : Visit, test v →
      Q v.before.state.stores (runLine none v.line v.text v.before).state.stores) :
    Kept test fun a b => Q a.state.stores b.state.stores := by
  have hchanges : ∀ {a b}, Changes none a b → Q a b := of_changes hrefl htrans hchange
  exact
    { refl := fun a => hrefl _
      trans := htrans
      plain := hvisit
      opened := fun v x _ hx => hchanges (changes_expansionOf? hx).1
      closed := fun v x hx a => by
        rw [(changes_expansionOf? hx).2 a]
        exact hrefl _
      fault := fun a cause token => hchanges (a.state.changes_fault cause token)
      moved := fun a files sources file line extensions => hrefl a.state.stores }

/-- What every change keeps is kept by whole runs. -/
theorem kept_of_changes {test : Visit → Prop} {Q : Stores → Stores → Prop} (hrefl : ∀ a, Q a a)
    (htrans : ∀ {a b c}, Q a b → Q b c → Q a c) (hplain : ∀ {a b}, Change none a b → Q a b)
    (hchange : ∀ {v : Visit} {a b}, test v → Change v.word? a b → Q a b) :
    Kept test fun a b => Q a.state.stores b.state.stores :=
  kept_of_visits hrefl htrans hplain fun v hv =>
    of_changes hrefl htrans (hchange hv) (changes_visit v)

end Assembler

end Sm83Asm
