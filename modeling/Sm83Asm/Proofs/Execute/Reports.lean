import Sm83Asm.Execute.Data
import Sm83Asm.Execute.Sections
import Sm83Asm.Proofs.Execute.Footprint
import Sm83Asm.Proofs.Link.Reports

set_option autoImplicit false

/-!
# Where carrying out a line reports

The diagnostics of a state grow by reports at the current place, no two of which say the same
(`State.Logs`). Computing the arguments of a keyword leaves the texts of later literals as they are
(`State.Computes`), so the reports of a keyword body come one after the other: those of its
arguments at their tokens, and its own at the word or where the value is used.

There is one lemma for the body of each keyword, `logs_` and its name.
-/

namespace Sm83Asm

open Sm83Asm.Expr

namespace State

/-! ## Texts of literals -/

/-- Two states in which every text stands for the same. -/
structure SameTexts (st st' : State) : Prop where
  config : st'.config = st.config
  lookup : st'.lookup? = st.lookup?
  uniqueIds : st'.uniqueIds = st.uniqueIds
  frame : st'.frame? = st.frame?

namespace SameTexts

variable {st st' st'' : State}

theorem refl (st : State) : SameTexts st st := ⟨rfl, rfl, rfl, rfl⟩

theorem trans (h : st.SameTexts st') (h' : st'.SameTexts st'') : st.SameTexts st'' :=
  ⟨h'.config.trans h.config, h'.lookup.trans h.lookup, h'.uniqueIds.trans h.uniqueIds,
    h'.frame.trans h.frame⟩

/-- Interpolations are the same when what they read from is. -/
theorem interpolate_eq (h : st.SameTexts st') : st'.interpolate = st.interpolate := by
  funext inner
  unfold interpolate
  rw [h.lookup]

theorem escapeText_eq (h : st.SameTexts st') : st'.escapeText = st.escapeText := by
  funext c
  unfold escapeText
  rw [h.uniqueIds, h.frame]

/-- A pass over a text is the same when what it reads from is. -/
theorem substitutePass_eq (h : st.SameTexts st') (cs : List Char) :
    st'.substitutePass cs = st.substitutePass cs := by
  fun_induction st.substitutePass cs with
  | case1 => simp only [substitutePass]
  | case2 => simp only [substitutePass]
  | case3 c rest hescaped ih => simp only [substitutePass, if_pos hescaped, ih, h.escapeText_eq]
  | case4 c rest hescaped ih =>
    rw [substitutePass, if_neg hescaped, ih]
  | case5 c rest hlone hescaped hopen close tail hfound hclose inner ih =>
    rw [substitutePass.eq_4 _ c rest hlone hescaped, if_pos hopen, hfound]
    dsimp only
    rw [if_pos hclose, h.interpolate_eq, ih]
  | case6 c rest hlone hescaped hopen close tail hfound hclose ih =>
    rw [substitutePass.eq_4 _ c rest hlone hescaped, if_pos hopen, hfound]
    dsimp only
    rw [if_neg hclose, ih]
  | case7 c rest hlone hescaped hopen hfound ih =>
    rw [substitutePass.eq_4 _ c rest hlone hescaped, if_pos hopen, hfound]
    dsimp only
    rw [ih]
  | case8 c rest hlone hescaped hopen ih =>
    rw [substitutePass.eq_4 _ c rest hlone hescaped, if_neg hopen, ih]

/-- A literal has the same text, and the same error, when what it reads from is the same. -/
theorem expandString_eq (h : st.SameTexts st') (literal : String) :
    st'.expandString literal = st.expandString literal := by
  have hsettle : ∀ left done cs, st'.settle left done cs = st.settle left done cs := by
    intro left
    induction left with
    | zero =>
      intro done cs
      simp only [settle, h.substitutePass_eq]
    | succ left ih =>
      intro done cs
      simp only [settle, h.substitutePass_eq, ih]
  unfold expandString
  rw [h.config, hsettle]

/-- An expression stays clear while nothing that its texts read from changes. -/
theorem clear (h : st.SameTexts st') {e : Expr} (he : e.Clear st) : e.Clear st' := by
  refine ⟨he.distinct, fun t ht => ?_⟩
  unfold SaysOnce
  rw [h.expandString_eq]
  exact he.literals t ht

/-- Expressions stay clear while nothing that their texts read from changes. -/
theorem allClear (h : st.SameTexts st') {es : List Expr} (hes : AllClear st es) :
    AllClear st' es := by
  refine ⟨hes.distinct, fun t ht => ?_⟩
  unfold SaysOnce
  rw [h.expandString_eq]
  exact hes.literals t ht

end SameTexts

/-! ## Diagnostics -/

/-- A state follows another one with reports at some places, no two of which say the same. -/
structure Logs (P : Places) (st st' : State) : Prop where
  file : st'.file = st.file
  line : st'.line = st.line
  added : ∃ reports, Once P reports ∧ st'.diagnostics =
    st.diagnostics ++ (reports.map fun r => (⟨r, st.file, st.line⟩ : Diagnostic)).toArray

/-- In addition, every text still stands for the same. -/
structure Computes (P : Places) (st st' : State) : Prop extends Logs P st st' where
  texts : st.SameTexts st'

variable {P Q R : Places} {st st' st'' : State}

namespace Logs

/-- A state that does not change logs nothing. -/
theorem refl (st : State) : Logs P st st := ⟨rfl, rfl, [], .nil, by simp⟩

/-- Reports are at more places than where they were shown to be. -/
theorem mono (h : Logs P st st') (hPR : ∀ c o, P c o → R c o) : Logs R st st' := by
  obtain ⟨hfile, hline, reports, honce, hadded⟩ := h
  exact ⟨hfile, hline, reports, honce.mono hPR, hadded⟩

/-- One piece of work after another one at different places. -/
theorem trans (h : Logs P st st') (h' : Logs Q st' st'') (hsplit : R.Splits P Q) :
    Logs R st st'' := by
  obtain ⟨hfile, hline, reports, honce, hadded⟩ := h
  obtain ⟨hfile', hline', more, honce', hadded'⟩ := h'
  refine ⟨hfile'.trans hfile, hline'.trans hline, reports ++ more, honce.append honce' hsplit, ?_⟩
  rw [hadded', hadded, hfile, hline]
  simp

/-- A change that adds no diagnostics. -/
theorem quietly (h : Logs P st st') (hfile : st''.file = st'.file) (hline : st''.line = st'.line)
    (hdiagnostics : st''.diagnostics = st'.diagnostics) : Logs P st st'' := by
  obtain ⟨hfile', hline', hadded⟩ := h
  exact ⟨hfile.trans hfile', hline.trans hline', hdiagnostics ▸ hadded⟩

/-- A change before the work that adds no diagnostics. -/
theorem behind (h : Logs P st' st'') (hfile : st'.file = st.file) (hline : st'.line = st.line)
    (hdiagnostics : st'.diagnostics = st.diagnostics) : Logs P st st'' := by
  obtain ⟨hfile', hline', hadded⟩ := h
  rw [hfile, hline, hdiagnostics] at hadded
  exact ⟨hfile'.trans hfile, hline'.trans hline, hadded⟩

/-- Changes elsewhere log nothing. -/
theorem of_eq (hfile : st'.file = st.file) (hline : st'.line = st.line)
    (hdiagnostics : st'.diagnostics = st.diagnostics) : Logs P st st' :=
  (refl st).quietly hfile hline hdiagnostics

/-- What both branches log is logged. -/
theorem ite {p : Prop} [Decidable p] (h : Logs P st st') (h' : Logs P st st'') :
    Logs P st (if p then st' else st'') := by
  split
  · exact h
  · exact h'

/-- An error is logged at its token. -/
theorem fault {cause : EvaluationCause} {token : Token}
    (h : ∀ o ∈ cause.occasions, P token.column o) : Logs P st (st.fault cause token) :=
  ⟨rfl, rfl, _, .singleton h, rfl⟩

end Logs

namespace Computes

/-- A computation is among more places than where it was shown to be. -/
theorem mono (h : Computes P st st') (hPR : ∀ c o, P c o → R c o) : Computes R st st' :=
  ⟨h.toLogs.mono hPR, h.texts⟩

theorem trans (h : Computes P st st') (h' : Computes Q st' st'') (hsplit : R.Splits P Q) :
    Computes R st st'' :=
  ⟨h.toLogs.trans h'.toLogs hsplit, h.texts.trans h'.texts⟩

end Computes

/-- What an action says that only draws is what the state logs. -/
theorem computes_evaluating {α : Type} {x : Act Random α} (h : x.Once P) :
    Computes P st (st.evaluating x).2 :=
  ⟨⟨rfl, rfl, _, h st.random, rfl⟩, rfl, rfl, rfl, rfl⟩

/-- What placing bytes says is what the state logs. -/
theorem computes_emitting {α : Type} {x : Act Emission α}
    (h : Once P (x st.emission).reports) :
    Computes P st (st.emitting x).2 :=
  ⟨⟨rfl, rfl, _, h, rfl⟩, rfl, rfl, rfl, rfl⟩

/-- Computing a number says something at the places of its expression only, and once. -/
theorem computes_number {e : Expr} (h : e.Clear st) : Computes e.places st (st.number e).2 :=
  computes_evaluating (st.scope.once_number h)

/-- Computing a text says something at the places of its expression only, and once. -/
theorem computes_text {e : Expr} (h : e.Clear st) : Computes e.places st (st.text e).2 :=
  computes_evaluating (st.scope.once_text h)

theorem Computes.sole {e : Expr} (h : Computes e.places st st') :
    Computes (allPlaces [e]) st st' :=
  h.mono fun _ _ hc => ⟨List.mem_append_left _ hc.1, hc.2⟩

/-- A missing number says nothing. -/
theorem computes_numberD (default : Int32) {e : Option Expr} (h : AllClear st e.toList) :
    Computes (allPlaces e.toList) st (st.numberD default e).2 := by
  cases e with
  | none => exact ⟨.refl st, .refl st⟩
  | some e => exact (computes_number h.head).sole

/-- One argument, and then the others. -/
theorem Computes.cons {e : Expr} {es : List Expr} (h : Computes e.places st st')
    (h' : Computes (allPlaces es) st' st'') (hdistinct : (allColumns (e :: es)).Nodup) :
    Computes (allPlaces (e :: es)) st st'' :=
  h.trans h' (Places.splits_computed hdistinct)

/-- Some arguments, and then others. -/
theorem Computes.append {es es' : List Expr} (h : Computes (allPlaces es) st st')
    (h' : Computes (allPlaces es') st' st'') (hdistinct : (allColumns (es ++ es')).Nodup) :
    Computes (allPlaces (es ++ es')) st st'' := by
  rw [allColumns_append] at hdistinct
  rw [allPlaces, allColumns_append]
  exact h.trans h' (Places.splits_computed hdistinct)

/-- The use of arguments behind their computation. -/
theorem Computes.then_used {es : List Expr} (h : Computes (allPlaces es) st st')
    (h' : Logs (.used (allColumns es)) st' st'') : Logs (.among (allColumns es)) st st'' :=
  h.toLogs.trans h' (Places.splits_used _)

/-- A fault in using the value of an argument. -/
theorem logs_fault_used {es : List Expr} {e : Expr} (he : e ∈ es) {cause : EvaluationCause}
    (h : cause.occasions = [.used]) :
    Logs (.used (allColumns es)) st (st.fault cause e.token) := by
  refine .fault fun o ho => ⟨mem_allColumns he (mem_columns e), ?_⟩
  rw [h] at ho
  exact List.mem_singleton.1 ho

/-- Bytes can change without a report. -/
theorem Logs.mapBytes (h : Logs P st st') (f : Array UInt8 → Array UInt8) :
    Logs P st (st'.mapBytes f) := by
  unfold State.mapBytes
  split
  · exact h.quietly rfl rfl rfl
  · exact h

/-- A label can end without a report. -/
theorem Logs.closeLabel (h : Logs P st st') : Logs P st st'.closeLabel := by
  unfold State.closeLabel
  split
  · exact h
  · exact h.quietly rfl rfl rfl

/-! ## Keywords and their arguments -/

/-- Where a word with arguments reports: at any of their tokens. -/
abbrev callPlaces (word : Token) (args : List Expr) : Places :=
  .among (word.column :: allColumns args)

/-- The tokens of a word and of its arguments stand in different columns, and the literals say
everything once. -/
structure ClearCall (st : State) (word : Token) (args : List Expr) : Prop where
  arguments : AllClear st args
  apart : word.column ∉ allColumns args

variable {word : Token} {args : List Expr} {keyword : Keyword} {cause : EvaluationCause}

/-- The word of a keyword stands in a column of its own. -/
theorem ClearCall.of_columns (hdistinct : (word.column :: allColumns args).Nodup)
    (hliterals : ∀ t ∈ allLiterals args, st.SaysOnce t) : ClearCall st word args :=
  ⟨⟨(List.nodup_cons.1 hdistinct).2, hliterals⟩, (List.nodup_cons.1 hdistinct).1⟩

/-- A call stays clear while nothing that its texts read from changes. -/
theorem SameTexts.clearCall (h : st.SameTexts st') (hcall : ClearCall st word args) :
    ClearCall st' word args :=
  ⟨h.allClear hcall.arguments, hcall.apart⟩

/-- A fault at the word. -/
theorem logs_fault_word : Logs (callPlaces word args) st (st.fault cause word) :=
  .fault fun _ _ => List.mem_cons_self

/-- An error that is made under a condition. -/
theorem logs_ite_fault {p : Prop} [Decidable p] :
    Logs (callPlaces word args) st (if p then st.fault cause word else st) :=
  .ite logs_fault_word (.refl st)

/-- What the arguments report, and then something at the word. -/
theorem Logs.then_word (h : Logs P st st') (hP : ∀ c o, P c o → c ∈ allColumns args)
    (h' : Logs (callPlaces word []) st' st'') (hword : word.column ∉ allColumns args) :
    Logs (callPlaces word args) st st'' := by
  refine h.trans h' ⟨fun c o hc => List.mem_cons_of_mem _ (hP c o hc), ?_, ?_⟩
  · intro c o hc
    rw [List.mem_singleton.1 hc]
    exact List.mem_cons_self
  · intro c o hc hc'
    rw [List.mem_singleton.1 hc'] at hc
    exact hword (hP _ o hc)

/-- What the arguments report, and then nothing. -/
theorem Logs.of_arguments (h : Logs P st st') (hP : ∀ c o, P c o → c ∈ allColumns args) :
    Logs (callPlaces word args) st st' :=
  h.mono fun c o hc => List.mem_cons_of_mem _ (hP c o hc)

/-- The places of an argument are columns of the arguments. -/
theorem places_le_allColumns {e : Expr} (he : e ∈ args) :
    ∀ c o, e.places c o → c ∈ allColumns args := fun _ _ hc => mem_allColumns he hc.1

theorem head?_sublist (es : List Expr) : es.head?.toList.Sublist es := by
  cases es with
  | nil => exact .refl _
  | cons e es => exact (List.nil_sublist es).cons_cons e

/-- The number of the first argument, if there is one. -/
theorem computes_head? (h : ClearCall st word args) (default : Int32) :
    Computes (allPlaces args) st (st.numberD default args.head?).2 := by
  have hfirst := head?_sublist args
  exact (computes_numberD default (h.arguments.sublist hfirst)).mono fun _ _ hc =>
    ⟨(allColumns_sublist hfirst).subset hc.1, hc.2⟩

/-- The number of the only argument, or a fault at the word. -/
theorem logs_soleNumber (h : ClearCall st word args) :
    Logs (callPlaces word args) st (st.soleNumber keyword word args).2 := by
  unfold soleNumber
  split
  · rename_i e
    exact (computes_number h.arguments.head).toLogs.of_arguments
      (places_le_allColumns (List.mem_singleton_self e))
  · exact logs_fault_word

/-! ## Blocks -/

/-- `IF` reports at the word and at its condition, each thing once. -/
theorem logs_beginIf (h : ClearCall st word args) :
    Logs (callPlaces word args) st (st.beginIf word args) := by
  unfold beginIf
  split
  · exact (logs_soleNumber h).quietly rfl rfl rfl
  · exact .of_eq rfl rfl rfl

/-- `ELIF` reports at the word and at its condition, each thing once. -/
theorem logs_nextIf (h : ClearCall st word args) :
    Logs (callPlaces word args) st (st.nextIf word args) := by
  unfold nextIf
  split
  · exact logs_fault_word
  · split
    · exact .of_eq rfl rfl rfl
    · exact (logs_soleNumber h).quietly rfl rfl rfl

theorem logs_lastIf : Logs (callPlaces word args) st (st.lastIf word) := by
  unfold lastIf
  split
  · exact logs_fault_word
  · exact .of_eq rfl rfl rfl

theorem logs_endIf : Logs (callPlaces word args) st (st.endIf word) := by
  unfold endIf
  split
  · exact logs_fault_word
  · exact .of_eq rfl rfl rfl

theorem logs_beginMacro {label : Option LabelDef} :
    Logs (callPlaces word args) st (st.beginMacro label word args) := by
  unfold beginMacro
  split
  · exact logs_fault_word
  · exact .of_eq rfl rfl rfl

theorem logs_endMacro : Logs (callPlaces word args) st (st.endMacro word) := by
  unfold endMacro
  split
  · exact logs_fault_word
  · exact .of_eq rfl rfl rfl
  · dsimp only
    split
    · exact logs_fault_word.quietly rfl rfl rfl
    · exact .of_eq rfl rfl rfl

/-- `SHIFT` reports at the word and at its count, each thing once. -/
theorem logs_shift (h : ClearCall st word args) :
    Logs (callPlaces word args) st (st.shift word args.head?) := by
  unfold shift
  refine (computes_head? h 1).toLogs.then_word (fun c o hc => hc.1) ?_ h.apart
  dsimp only
  split
  · exact logs_fault_word
  · split
    · exact logs_fault_word
    · exact .of_eq rfl rfl rfl

/-- `REPT` reports at the word and at its count, each thing once. -/
theorem logs_beginRepeat (h : ClearCall st word args) :
    Logs (callPlaces word args) st (st.beginRepeat word args) := by
  unfold beginRepeat
  split
  · match args, h with
    | [e], h =>
      refine (computes_number h.arguments.head).toLogs.then_word
        (places_le_allColumns (List.mem_singleton_self e)) ?_ h.apart
      exact (logs_ite_fault (p := (st.number e).1 < 0)).quietly rfl rfl rfl
    | [], _ | _ :: _ :: _, _ =>
      -- The count is zero after the report, so nothing more is said of it.
      exact logs_fault_word.quietly rfl rfl rfl
  · exact .of_eq rfl rfl rfl

/-! ## Names -/

/-- A label in front reports only at its name. -/
theorem logs_defineLabel {label : LabelDef} :
    Logs (.among [label.name.column]) st (st.defineLabel label) := by
  have hfault : ∀ cause : EvaluationCause,
      Logs (.among [label.name.column]) st (st.fault cause label.name) :=
    fun cause => .fault fun _ _ => List.mem_cons_self
  unfold defineLabel
  dsimp only
  split
  · split
    · exact hfault _
    · split
      · exact hfault _
      · exact ((Logs.refl st).closeLabel).quietly rfl rfl rfl
  · exact hfault _

/-- A name that is taken is reported, and nothing else then. -/
theorem logs_withNewName {label : Option LabelDef} {k : String → State}
    (hk : ∀ name, Logs (callPlaces word args) st (k name)) :
    Logs (callPlaces word args) st (st.withNewName keyword label word k) := by
  rcases st.withNewName_cases keyword label word k with ⟨cause, h⟩ | ⟨name, -, h⟩
  · rw [h]
    exact logs_fault_word
  · rw [h]
    exact hk name

variable {label : Option LabelDef} {e : Expr}

/-- The number of the only argument, and then nothing. -/
theorem logs_number (h : ClearCall st word [e]) : Logs (callPlaces word [e]) st (st.number e).2 :=
  (computes_number h.arguments.head).toLogs.of_arguments
    (places_le_allColumns (List.mem_singleton_self e))

/-- The text of the only argument, and then nothing. -/
theorem logs_text (h : ClearCall st word [e]) : Logs (callPlaces word [e]) st (st.text e).2 :=
  (computes_text h.arguments.head).toLogs.of_arguments
    (places_le_allColumns (List.mem_singleton_self e))

/-- `EQU` reports nothing twice. -/
theorem logs_equ (h : ClearCall st word [e]) :
    Logs (callPlaces word [e]) st (st.equ label word e) :=
  logs_withNewName fun _ => (logs_number h).quietly rfl rfl rfl

/-- `EQUS` reports nothing twice. -/
theorem logs_equs (h : ClearCall st word [e]) :
    Logs (callPlaces word [e]) st (st.equs label word e) :=
  logs_withNewName fun _ => (logs_text h).quietly rfl rfl rfl

/-- `SET` reports nothing twice. -/
theorem logs_assign (h : ClearCall st word [e]) :
    Logs (callPlaces word [e]) st (st.assign label word e) := by
  unfold assign
  split
  · exact logs_fault_word
  · dsimp only
    split
    · exact logs_fault_word
    · exact (logs_number h).quietly rfl rfl rfl

/-- Fields report nothing twice. -/
theorem logs_field (h : ClearCall st word args) :
    Logs (callPlaces word args) st (st.field keyword label word args.head?) :=
  logs_withNewName fun _ =>
    ((computes_head? h 1).toLogs.of_arguments fun _ _ hc => hc.1).quietly rfl rfl rfl

/-- `CHARMAP` reports at its two arguments, which share no column. -/
theorem logs_mapText {key value : Expr} (h : ClearCall st word [key, value]) :
    Logs (callPlaces word [key, value]) st (st.mapText key value) := by
  have hkey := computes_text h.arguments.head
  have hvalue := computes_number (hkey.texts.clear h.arguments.tail.head)
  refine ((hkey.cons hvalue.sole h.arguments.distinct).then_used ?_).of_arguments fun _ _ hc => hc
  unfold mapText
  dsimp only
  split
  · exact logs_fault_used List.mem_cons_self rfl
  · split
    · exact logs_fault_used (List.mem_cons_of_mem _ List.mem_cons_self) rfl
    · exact .of_eq rfl rfl rfl

/-- Work on one thing after the other reports at the tokens of each. -/
theorem logs_foldl {α : Type} {f : State → α → State} {columns : α → List Nat}
    (hf : ∀ st a, Logs (.among (columns a)) st (f st a)) (as : List α) :
    ∀ st, (as.flatMap columns).Nodup → Logs (.among (as.flatMap columns)) st (as.foldl f st) := by
  induction as with
  | nil => exact fun st _ => .refl st
  | cons a as ih =>
    intro st h
    rw [List.flatMap_cons] at h ⊢
    refine (hf st a).trans (ih _ h.of_append_right) ⟨?_, ?_, ?_⟩
    · exact fun c o => List.mem_append_left _
    · exact fun c o => List.mem_append_right _
    · exact fun c o hc hc' => List.disjoint_of_nodup_append h hc hc'

/-- Work on each argument on its own. -/
theorem logs_eachArgument {f : State → Expr → State}
    (hf : ∀ st e, Logs (.among e.columns) st (f st e)) (h : ClearCall st word args) :
    Logs (callPlaces word args) st (args.foldl f st) := by
  have hdistinct := h.arguments.distinct
  rw [allColumns_eq_flatMap] at hdistinct
  apply (logs_foldl hf args st hdistinct).of_arguments
  rw [allColumns_eq_flatMap]
  exact fun _ _ => id

/-- A fault at one argument. -/
theorem logs_fault_argument : Logs (.among e.columns) st (st.fault cause e.token) :=
  .fault fun _ _ => mem_columns e

/-- Every exported name reports at a place of its own. -/
theorem logs_exportAll (h : ClearCall st word args) :
    Logs (callPlaces word args) st (st.exportAll args) := by
  refine logs_eachArgument (fun st e => ?_) h
  unfold exportOne
  split
  · split
    · exact logs_fault_argument
    · split
      · exact .of_eq rfl rfl rfl
      · split
        · exact .refl st
        · exact .of_eq rfl rfl rfl
  · exact logs_fault_argument

/-- Every removed name reports at a place of its own. -/
theorem logs_purge (h : ClearCall st word args) :
    Logs (callPlaces word args) st (st.purge args) := by
  refine logs_eachArgument (fun st e => ?_) h
  unfold purgeOne
  dsimp only
  split
  · split
    · exact .of_eq rfl rfl rfl
    · exact logs_fault_argument.quietly rfl rfl rfl
  · split
    · exact logs_fault_argument.quietly rfl rfl rfl
    · exact .of_eq rfl rfl rfl

/-! ## Options and messages -/

/-- Every option reports at a place of its own. -/
theorem logs_changeOptions {args : List Token} (h : (args.map Token.column).Nodup) :
    Logs (.among (args.map Token.column)) st (st.changeOptions args) := by
  have hone : ∀ (st : State) (arg : Token),
      Logs (.among [arg.column]) st (st.changeOption arg) := by
    intro st arg
    unfold changeOption
    split
    · exact .of_eq rfl rfl rfl
    · exact .fault fun _ _ => List.mem_cons_self
  rw [List.map_eq_flatMap] at h ⊢
  exact logs_foldl hone args st h

theorem logs_pushOptions {args : List Token} (h : (args.map Token.column).Nodup) :
    Logs (.among (args.map Token.column)) st (st.pushOptions args) := by
  unfold pushOptions
  exact (logs_changeOptions h).behind rfl rfl rfl

theorem logs_popOptions : Logs (callPlaces word args) st (st.popOptions word) := by
  unfold popOptions
  split
  · exact logs_fault_word
  · exact .of_eq rfl rfl rfl

/-- Printing reports nothing twice. -/
theorem logs_printValue (keyword : Keyword) (h : ClearCall st word [e]) :
    Logs (callPlaces word [e]) st (st.printValue keyword e) := by
  unfold printValue
  split
  · exact (logs_text h).quietly rfl rfl rfl
  · exact (logs_number h).quietly rfl rfl rfl
  · exact (logs_number h).quietly rfl rfl rfl
  · exact (logs_number h).quietly rfl rfl rfl

/-- A message of the source is one report, next to those of its text. -/
theorem logs_userMessage (h : ClearCall st word [e]) :
    Logs (callPlaces word [e]) st (st.userMessage keyword word e) :=
  (computes_text h.arguments.head).sole.toLogs.then_word (fun _ _ hc => hc.1) logs_fault_word
    h.apart

/-- Seeding the random source reports nothing twice. -/
theorem logs_reseed (h : ClearCall st word [e]) :
    Logs (callPlaces word [e]) st (st.reseed e) :=
  (logs_number h).quietly rfl rfl rfl

/-! ## Data and unions -/

end State

namespace Scope

variable (sc : Scope)

/-- An item of data reports nothing twice, whether it is placed now or left to the linker. -/
theorem once_dataItem (keyword : Keyword) (offset : Nat) {e : Expr} (h : e.Clear sc.state) :
    (sc.dataItem keyword offset e).Once (.among e.columns) := by
  have hnumber : ∀ kind, (({ sc with pinned := some offset } : Scope).numberOrPatch kind offset
      e).Once e.places := fun kind => once_numberOrPatch _ kind offset h
  unfold dataItem
  dsimp only
  split
  · have hvalue := once_valueOrPatch { sc with pinned := some offset } [] .byte offset .either h
    refine hvalue.bind (fun value => ?_)
      (Places.splits_used _)
    split
    · exact Act.once_pure _
    · split
      · exact Act.once_reported (used_of_occasions rfl e) _
      · exact Act.once_pure _
  · refine (hnumber .word).bind (fun n => ?_) (Places.splits_used _)
    split
    · exact Act.once_reported (used_of_occasions rfl e) _
    · exact Act.once_pure _
  · exact ((hnumber .long).bind_pure _).mono fun c o hc => hc.1

/-- Items of data report at places of their own. -/
theorem once_dataItems (keyword : Keyword) (es : List Expr) : ∀ offset, AllClear sc.state es →
    (sc.dataItems keyword offset es).Once (.among (allColumns es)) := by
  induction es with
  | nil => exact fun _ _ => Act.once_pure _
  | cons e es ih =>
    intro offset h
    exact (sc.once_dataItem keyword offset h.head).bind
      (fun bytes => (ih _ h.tail).bind_pure _) (Places.splits_among h.distinct)

end Scope

namespace State

variable {P : Places} {st st' : State} {word : Token} {args : List Expr} {keyword : Keyword}

/-- Data reports nothing twice. -/
theorem logs_data (h : ClearCall st word args) :
    Logs (callPlaces word args) st (st.data keyword word args) := by
  unfold data
  split
  · exact logs_fault_word
  · rename_i start hstart
    have hitems : Computes (.among (allColumns args)) st
        (st.emitting (st.scope.dataItems keyword start args)).2 :=
      computes_emitting (st.scope.once_dataItems keyword args start h.arguments _)
    exact (hitems.toLogs.mapBytes _).of_arguments fun _ _ hc => hc

/-- `DS` reports nothing twice: its count and its filling share no column. -/
theorem logs_reserve {count : Expr} {fill : List Expr} (h : ClearCall st word (count :: fill)) :
    Logs (callPlaces word (count :: fill)) st (st.reserve word count fill.head?) := by
  unfold reserve
  split
  · exact logs_fault_word
  · have hsome := (head?_sublist fill).cons_cons count
    have hargs := h.arguments.sublist hsome
    have hcolumns := (allColumns_sublist hsome).subset
    have hcount := computes_number hargs.head
    have hfill := computes_numberD (Int32.ofNat st.options.pad.toNat)
      (hcount.texts.allClear hargs.tail)
    have hboth := hcount.cons hfill hargs.distinct
    dsimp only
    split
    · exact (hboth.then_used (logs_fault_used List.mem_cons_self rfl)).of_arguments
        fun _ _ hc => hcolumns hc
    · split
      · exact hboth.toLogs.then_word (fun _ _ hc => hcolumns hc.1) logs_fault_word h.apart
      · exact (hboth.toLogs.mapBytes _).of_arguments fun _ _ hc => hcolumns hc.1

theorem logs_beginUnion : Logs (callPlaces word args) st (st.beginUnion word) := by
  unfold beginUnion
  split
  · exact logs_fault_word
  · exact .of_eq rfl rfl rfl

theorem logs_nextMember : Logs (callPlaces word args) st (st.nextMember word) := by
  unfold nextMember
  split
  · exact logs_fault_word
  · exact ((Logs.refl st).mapBytes _).quietly rfl rfl rfl

theorem logs_endUnion : Logs (callPlaces word args) st (st.endUnion word) := by
  unfold endUnion
  split
  · exact logs_fault_word
  · exact ((Logs.refl st).mapBytes _).quietly rfl rfl rfl

/-! ## Sections -/

theorem logs_pushSection : Logs P st st.pushSection :=
  ((Logs.refl st).closeLabel).quietly rfl rfl rfl

theorem logs_popSection : Logs (callPlaces word args) st (st.popSection word) := by
  have hclose : st.closeLabel.file = st.file ∧ st.closeLabel.line = st.line ∧
      st.closeLabel.diagnostics = st.diagnostics := by
    unfold closeLabel
    split
    · exact ⟨rfl, rfl, rfl⟩
    · exact ⟨rfl, rfl, rfl⟩
  unfold popSection
  dsimp only
  split
  · exact logs_fault_word.behind hclose.1 hclose.2.1 hclose.2.2
  · exact ((Logs.refl st).closeLabel).quietly rfl rfl rfl

variable (region : Region)

/-- Reading an attribute changes nothing that texts are read from. -/
theorem sameTexts_readAttribute (st : State) (attrs : Attributes) (e : Expr) :
    st.SameTexts (st.readAttribute region attrs e).2 := by
  unfold readAttribute
  split
  · dsimp only
    split
    · split
      · exact ⟨rfl, rfl, rfl, rfl⟩
      · split
        · exact ⟨rfl, rfl, rfl, rfl⟩
        · exact ⟨rfl, rfl, rfl, rfl⟩
    · split
      · exact ⟨rfl, rfl, rfl, rfl⟩
      · exact ⟨rfl, rfl, rfl, rfl⟩
    · exact ⟨rfl, rfl, rfl, rfl⟩
  · exact ⟨rfl, rfl, rfl, rfl⟩

/-- An attribute of a section reports nothing twice. -/
theorem logs_readAttribute (attrs : Attributes) {e : Expr} (h : e.Clear st) :
    Logs (.among e.columns) st (st.readAttribute region attrs e).2 := by
  cases e with
  | index t base value =>
    have hcolumns : (t.column :: (base.columns ++ value.columns)).Nodup := h.distinct
    have hapart : t.column ∉ allColumns [value] := by
      rw [allColumns, allColumns]
      grind
    have hvalue := (computes_number h.index).sole
    -- A fault stands at the bracket in front or says how the number behind it is used.
    have hword : ∀ cause, Logs (callPlaces t [value]) st ((st.number value).2.fault cause t) :=
      fun cause => hvalue.toLogs.then_word (fun _ _ hc => hc.1) logs_fault_word hapart
    have hused : ∀ cause : EvaluationCause, cause.occasions = [.used] →
        Logs (callPlaces t [value]) st ((st.number value).2.fault cause value.token) :=
      fun cause hcause =>
        (hvalue.then_used (logs_fault_used List.mem_cons_self hcause)).of_arguments fun _ _ => id
    have hquiet : Logs (callPlaces t [value]) st (st.number value).2 :=
      hvalue.toLogs.of_arguments fun _ _ hc => hc.1
    refine Logs.mono (P := callPlaces t [value]) ?_ fun c o hc => ?_
    · unfold readAttribute
      dsimp only
      split
      · split
        · exact hword _
        · split
          · exact hquiet
          · exact hused _ rfl
      · split
        · exact hquiet
        · exact hused _ rfl
      · exact hword _
    · show c ∈ t.column :: (base.columns ++ value.columns)
      have hc : c ∈ t.column :: (value.columns ++ []) := hc
      grind
  | _ => exact .fault fun _ _ => mem_columns _

/-- Attributes of a section report at places of their own. -/
theorem logs_readAttributes (es : List Expr) : ∀ (st : State) (attrs : Attributes),
    AllClear st es → Logs (.among (allColumns es)) st (st.readAttributes region attrs es).2 := by
  induction es with
  | nil => exact fun st attrs _ => .refl st
  | cons e es ih =>
    intro st attrs h
    have hone := logs_readAttribute region attrs h.head
    have htexts := sameTexts_readAttribute region st attrs e
    rw [readAttributes]
    cases hread : st.readAttribute region attrs e with
    | mk found st' =>
      rw [hread] at hone htexts
      cases found with
      | none => exact hone.mono fun c o => List.mem_append_left _
      | some attrs =>
        exact hone.trans (ih st' attrs (htexts.allClear h.tail)) (Places.splits_among h.distinct)

theorem sameTexts_fixedAddress (st : State) (e : Option Expr) :
    st.SameTexts (st.fixedAddress region e).2 := by
  cases e with
  | none => exact .refl st
  | some e =>
    unfold fixedAddress
    dsimp only
    split
    · exact ⟨rfl, rfl, rfl, rfl⟩
    · exact ⟨rfl, rfl, rfl, rfl⟩

theorem logs_fixedAddress {e : Option Expr} (h : AllClear st e.toList) :
    Logs (.among (allColumns e.toList)) st (st.fixedAddress region e).2 := by
  cases e with
  | none => exact .refl st
  | some e =>
    have hnumber := (computes_number h.head).sole
    unfold fixedAddress
    dsimp only
    split
    · exact hnumber.toLogs.mono fun _ _ hc => hc.1
    · exact hnumber.then_used (logs_fault_used List.mem_cons_self rfl)

/-- A section that is declared in another way is reported once. -/
theorem logs_openSection {declared : Section} {name : Expr} :
    Logs (.used name.columns) st (st.openSection declared name.token) := by
  unfold openSection
  dsimp only
  split
  · split
    · exact ((Logs.refl st).closeLabel).quietly rfl rfl rfl
    · exact .fault (Scope.used_of_occasions rfl name)
  · have hdeclare : Logs (.used name.columns) st
        { st with sections := st.sections.insert declared.name declared } := .of_eq rfl rfl rfl
    exact hdeclare.closeLabel.quietly rfl rfl rfl

/-- The region and the address of a section are the expression behind its name, or parts of it. -/
theorem regionParts_clear {kind : Expr} (h : kind.Clear st) :
    (regionParts kind).1.token.column ∈ kind.columns ∧
      AllClear st (regionParts kind).2.toList ∧
        ∀ c ∈ allColumns (regionParts kind).2.toList, c ∈ kind.columns := by
  cases kind with
  | index t base address =>
    refine ⟨List.mem_cons_of_mem _ (List.mem_append_left _ (mem_columns base)), ⟨?_, ?_⟩, ?_⟩
    · simpa [regionParts, allColumns] using h.index.distinct
    · simpa [regionParts, allLiterals] using h.index.literals
    · intro c hc
      have hc : c ∈ address.columns := by simpa [regionParts, allColumns] using hc
      exact List.mem_cons_of_mem _ (List.mem_append_right _ hc)
  | _ => exact ⟨mem_columns _, ⟨List.nodup_nil, by simp [regionParts, allLiterals]⟩,
      by simp [regionParts, allColumns]⟩

/-- The region of a section, its address and its attributes report before the section is opened. -/
theorem logs_beginSection {name kind : Expr} {attrs : List Expr}
    (h : ClearCall st word (name :: kind :: attrs)) :
    Logs (callPlaces word (name :: kind :: attrs)) st (st.beginSection name kind attrs) := by
  have hdistinct : (name.columns ++ (kind.columns ++ allColumns attrs)).Nodup :=
    h.arguments.distinct
  have htitle := computes_text h.arguments.head
  have hkind := htitle.texts.clear h.arguments.tail.head
  have hattrs := htitle.texts.allClear h.arguments.tail.tail
  obtain ⟨hplace, haddress, hinside⟩ := regionParts_clear hkind
  -- Behind the name, reports stand in the other columns, or say how the name is used.
  let rest : Places := fun c o =>
    c ∈ kind.columns ++ allColumns attrs ∨ c ∈ name.columns ∧ o = .used
  have hsplit : (Places.among (allColumns (name :: kind :: attrs))).Splits name.places rest := by
    constructor
    · exact fun c o hc => List.mem_append_left _ hc.1
    · intro c o hc
      show c ∈ name.columns ++ (kind.columns ++ allColumns attrs)
      grind
    · intro c o hc hc'
      grind
  refine Logs.of_arguments (htitle.toLogs.trans (Q := rest) ?_ hsplit) fun _ _ => id
  unfold beginSection
  dsimp only
  split
  · exact .fault fun _ _ => .inl (List.mem_append_left _ hplace)
  · rename_i region hregion
    have hfixed := (logs_fixedAddress region haddress).mono (R := .among kind.columns)
      fun c o => hinside c
    have htexts := sameTexts_fixedAddress region (st.text name).2 (regionParts kind).2
    split
    · rename_i st' heq
      rw [heq] at hfixed
      exact hfixed.mono fun c o hc => .inl (List.mem_append_left _ hc)
    · rename_i fixed st' heq
      rw [heq] at hfixed htexts
      have hread := logs_readAttributes region attrs st' {} (htexts.allClear hattrs)
      have hboth := hfixed.trans hread (Places.splits_among h.arguments.tail.distinct)
      split
      · rename_i st'' heq'
        rw [heq'] at hboth
        exact hboth.mono fun c o => .inl
      · rename_i found st'' heq'
        rw [heq'] at hboth
        refine hboth.trans logs_openSection ⟨fun c o => .inl, fun c o => .inr, ?_⟩
        intro c o hc hc'
        exact List.disjoint_of_nodup_append hdistinct hc'.1 hc

end State

end Sm83Asm
