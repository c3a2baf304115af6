import Mathlib.Data.List.Flatten
import Mathlib.Data.List.Nodup
import Sm83Asm.Proofs.Act
import Sm83Asm.Proofs.Link.Compile

set_option autoImplicit false

/-!
# Where evaluation reports

At the token of an expression something can be reported on three occasions: while the expression
itself is computed, when its value is turned into what is expected, and when that is used. The
wording of a report tells the occasion, so reports on two occasions differ even at one token. A set
of places, which are columns with occasions, bounds what a piece of work can report, and pieces of
work at different places report nothing twice.

Main statement: `once_value`. An expression whose tokens stand in different columns and whose string
literals have no fault twice reports nothing twice while it is computed.
-/

namespace Sm83Asm

/-- What tells two reports apart for a reader: the stage, the wording and the token. -/
def Report.key (r : Report) : Stage × String × Option Token :=
  (r.cause.stage, r.cause.message, r.token)

/-! ## Occasions -/

/-- An occasion to report something at the token of an expression. -/
inductive Occasion where
  /-- The expression itself is computed. -/
  | own
  /-- Its value is turned into a number or a text. -/
  | coerced
  /-- The number or text is used. -/
  | used
deriving DecidableEq

/-- The first words of the messages for each occasion. -/
def Occasion.openings : Occasion → List String
  | .own =>
    ["`", "expression must be constant", "label `", "invalid number `", "division by zero",
      "macro argument `", "`\\@` used outside of a macro or REPT block", "interpolated symbol `",
      "invalid interpolation format `", "string expansion did not settle after ",
      "unknown function `", "`@` used outside of a section", "local label `",
      "string expressions must be constant",
      "non-constant expressions must be placed within sections"]
  | .coerced => ["expected a string", "string `"]
  | .used =>
    ["value ", "jump target is ", "charmap entries cannot be empty", "charmap value ",
      "cannot reserve ", "address $", "bank ", "alignment ", "section `", "cant find file `"]

/-- The occasions that a cause may belong to. Causes that stand alone at their token, and messages
of the user, are not told apart by their wording. -/
def EvaluationCause.occasions : EvaluationCause → List Occasion
  | .undefined _ | .notConstant | .labelNotConstant _ | .invalidNumber _ | .divisionByZero
  | .substitution _ | .unsettledString _ | .unknownFunction _ | .functionArity _
  | .onlyAtLinkTime _ | .locationOutsideSection | .localOutsideGlobal _ | .notAtLinkTime _
  | .stringNotConstant | .deferredOutsideSection => [.own]
  | .stringExpected | .notANumber _ => [.coerced]
  | .tooWide _ _ | .jumpTooFar _ | .emptyCharmapKey | .charmapTooWide _ | .cannotReserve _
  | .addressOutsideRegion _ _ | .bankOutsideRegion _ _ | .invalidAlignment _
  | .sectionRedeclared _ | .missingFile _ => [.used]
  | _ => [.own, .coerced, .used]

/-- Causes that lie in the text of a string literal. -/
def EvaluationCause.isOfText : EvaluationCause → Bool
  | .substitution _ | .unsettledString _ => true
  | _ => false

/-- Errors of a text are found where the text stands. -/
theorem EvaluationCause.occasions_of_isOfText {cause : EvaluationCause}
    (h : cause.isOfText = true) : cause.occasions = [.own] := by
  cases cause <;> first | rfl | exact absurd h (by simp [isOfText])

/-- A text begins with a word. -/
def Begins (word text : String) : Prop := ∃ rest, text = word ++ rest

theorem Begins.self (word : String) : Begins word word := ⟨"", by simp⟩

/-- More text behind it does not change how a message begins. -/
theorem Begins.append {word text : String} (h : Begins word text) (more : String) :
    Begins word (text ++ more) := by
  obtain ⟨rest, rfl⟩ := h
  exact ⟨rest ++ more, String.append_assoc⟩

/-- The characters of a beginning lead those of the message. -/
theorem Begins.leads {word text : String} (h : Begins word text) :
    word.toList <+: text.toList := by
  obtain ⟨rest, rfl⟩ := h
  rw [String.toList_append]
  exact List.prefix_append _ _

theorem Occasion.mem_all (o : Occasion) : o ∈ [own, coerced, used] := by
  cases o <;> decide

/-- No message begins with the first words for two occasions. -/
theorem Occasion.eq_of_leads {o o' : Occasion} {word word' : String} (hw : word ∈ o.openings)
    (hw' : word' ∈ o'.openings)
    (h : word.toList <+: word'.toList ∨ word'.toList <+: word.toList) : o = o' := by
  -- One check for all occasions, so that every word is taken apart into its characters once.
  have hcheck : ∀ o ∈ [own, coerced, used], ∀ o' ∈ [own, coerced, used], o ≠ o' →
      ∀ word ∈ o.openings, ∀ word' ∈ o'.openings, ¬ word.toList <+: word'.toList := by
    decide +kernel
  by_contra hne
  rcases h with h | h
  · exact hcheck o o.mem_all o' o'.mem_all hne word hw word' hw' h
  · exact hcheck o' o'.mem_all o o.mem_all (Ne.symm hne) word' hw' word hw h

/-- Errors of substitutions open with words of their own. -/
theorem SubstitutionError.exists_opening (error : SubstitutionError) :
    ∃ word ∈ Occasion.own.openings, Begins word error.message := by
  cases error
  case outsideExpansion => exact ⟨_, by decide, .self _⟩
  all_goals
    refine ⟨_, ?_, ((Begins.self _).append _).append _⟩
    decide

/-- The message of a cause that belongs to one occasion begins as those for the occasion do. -/
theorem EvaluationCause.exists_opening {cause : EvaluationCause} {o : Occasion}
    (h : cause.occasions = [o]) : ∃ word ∈ o.openings, Begins word cause.message := by
  cases cause
  case substitution error =>
    obtain rfl : Occasion.own = o := (List.cons.inj h).1
    exact error.exists_opening
  case notConstant | divisionByZero | locationOutsideSection | stringNotConstant
    | deferredOutsideSection | stringExpected | emptyCharmapKey =>
    cases h
    refine ⟨_, ?_, .self _⟩
    decide
  case undefined | labelNotConstant | invalidNumber | unsettledString | unknownFunction
    | onlyAtLinkTime | localOutsideGlobal | notAtLinkTime | notANumber | jumpTooFar
    | charmapTooWide | cannotReserve | invalidAlignment | sectionRedeclared | missingFile =>
    cases h
    refine ⟨_, ?_, ((Begins.self _).append _).append _⟩
    decide
  case addressOutsideRegion | bankOutsideRegion =>
    cases h
    refine ⟨_, ?_, (((Begins.self _).append _).append _).append _⟩
    decide
  case functionArity | tooWide =>
    cases h
    refine ⟨_, ?_, ((((Begins.self _).append _).append _).append _).append _⟩
    decide
  all_goals cases h

/-- A cause with one occasion has no other. -/
theorem EvaluationCause.eq_of_mem_occasions {cause : EvaluationCause} {o o' : Occasion}
    (h : cause.occasions = [o]) (ho' : o' ∈ cause.occasions) : o' = o := by
  rw [h] at ho'
  exact List.mem_singleton.1 ho'

/-- Causes with the same message have an occasion in common. -/
theorem EvaluationCause.exists_occasion {a b : EvaluationCause} (h : a.message = b.message) :
    ∃ o, o ∈ a.occasions ∧ o ∈ b.occasions := by
  have hcases : ∀ c : EvaluationCause, (∃ o, c.occasions = [o]) ∨
      c.occasions = [.own, .coerced, .used] := by
    intro c
    cases c
    all_goals first
      | exact .inl ⟨_, rfl⟩
      | exact .inr rfl
  rcases hcases a with ⟨o, ha⟩ | ha
  · rcases hcases b with ⟨o', hb⟩ | hb
    · -- Both messages begin with first words, one of which is then the beginning of the other.
      obtain ⟨word, hword, hbegins⟩ := exists_opening ha
      obtain ⟨word', hword', hbegins'⟩ := exists_opening hb
      rw [h] at hbegins
      obtain rfl := Occasion.eq_of_leads hword hword'
        (List.prefix_or_prefix_of_prefix hbegins.leads hbegins'.leads)
      exact ⟨o, by simp [ha], by simp [hb]⟩
    · exact ⟨o, by simp [ha], hb ▸ o.mem_all⟩
  · obtain ⟨o, ho⟩ : ∃ o, o ∈ b.occasions := by
      rcases hcases b with ⟨o, hb⟩ | hb
      · exact ⟨o, by simp [hb]⟩
      · exact ⟨.own, by simp [hb]⟩
    exact ⟨o, ha ▸ o.mem_all, ho⟩

/-! ## Places of reports -/

/-- A set of places for reports: columns of tokens, with occasions. -/
abbrev Places := Nat → Occasion → Prop

namespace Places

/-- One place. -/
def one (column : Nat) (o : Occasion) : Places := fun c o' => c = column ∧ o' = o

/-- The occasions at some columns while values are computed and turned into what is expected. -/
abbrev computed (columns : List Nat) : Places := fun c o => c ∈ columns ∧ o ≠ .used

/-- The use of values at some columns. -/
def used (columns : List Nat) : Places := fun c o => c ∈ columns ∧ o = .used

/-- All occasions at some columns. -/
def among (columns : List Nat) : Places := fun c _ => c ∈ columns

/-- Two sets without a place in common, both in a third one. -/
structure Splits (R P Q : Places) : Prop where
  left : ∀ c o, P c o → R c o
  right : ∀ c o, Q c o → R c o
  apart : ∀ c o, P c o → ¬ Q c o

/-- A cause with one occasion has one place at its token. -/
theorem one_of_occasions {cause : EvaluationCause} {o : Occasion} (h : cause.occasions = [o])
    (token : Token) : ∀ o' ∈ cause.occasions, one token.column o token.column o' := fun _ ho' =>
  ⟨rfl, EvaluationCause.eq_of_mem_occasions h ho'⟩

/-- The places of either of two sets. -/
def either (P Q : Places) : Places := fun c o => P c o ∨ Q c o

/-- Where expressions share no column, their places split between them. -/
theorem splits_computed {a b : List Nat} (h : (a ++ b).Nodup) :
    (computed (a ++ b)).Splits (computed a) (computed b) :=
  ⟨fun _ _ hc => ⟨List.mem_append_left _ hc.1, hc.2⟩,
    fun _ _ hc => ⟨List.mem_append_right _ hc.1, hc.2⟩,
    fun _ _ hc hc' => List.disjoint_of_nodup_append h hc.1 hc'.1⟩

/-- Columns that are not shared split the places in them. -/
theorem splits_among {a b : List Nat} (h : (a ++ b).Nodup) :
    (among (a ++ b)).Splits (among a) (among b) :=
  ⟨fun _ _ hc => List.mem_append_left _ hc, fun _ _ hc => List.mem_append_right _ hc,
    fun _ _ hc hc' => List.disjoint_of_nodup_append h hc hc'⟩

/-- What is said when a value is used is none of what is said before. -/
theorem splits_used (columns : List Nat) :
    (among columns).Splits (computed columns) (used columns) :=
  ⟨fun _ _ hc => hc.1, fun _ _ hc => hc.1, fun _ _ hc hc' => hc.2 hc'.2⟩

/-- Places that exclude each other. -/
theorem splits_either {P Q : Places} (h : ∀ c o, P c o → ¬ Q c o) : (either P Q).Splits P Q :=
  ⟨fun _ _ => Or.inl, fun _ _ => Or.inr, h⟩

end Places

/-- Reports of the evaluator at some places, no two of which say the same. -/
structure Once (P : Places) (reports : List Report) : Prop where
  inside : ∀ r ∈ reports, ∃ cause token, r = .evaluation cause token ∧
    ∀ o ∈ cause.occasions, P token.column o
  distinct : (reports.map Report.key).Nodup

namespace Once

variable {P Q R : Places} {reports more : List Report}

theorem nil : Once P [] := ⟨by simp, List.nodup_nil⟩

/-- One error, said at its token. -/
theorem singleton {cause : EvaluationCause} {token : Token}
    (h : ∀ o ∈ cause.occasions, P token.column o) : Once P [.evaluation cause token] :=
  ⟨by simpa using ⟨cause, token, rfl, h⟩, List.nodup_singleton _⟩

/-- What is said once among some places is said once among more. -/
theorem mono (h : Once P reports) (hPR : ∀ c o, P c o → R c o) : Once R reports := by
  refine ⟨fun r hr => ?_, h.distinct⟩
  obtain ⟨cause, token, rfl, hplace⟩ := h.inside r hr
  exact ⟨cause, token, rfl, fun o ho => hPR _ _ (hplace o ho)⟩

/-- Reports at different places say different things. -/
theorem append (h : Once P reports) (h' : Once Q more) (hsplit : R.Splits P Q) :
    Once R (reports ++ more) := by
  constructor
  · exact List.forall_mem_append.2
      ⟨(h.mono hsplit.left).inside, (h'.mono hsplit.right).inside⟩
  · rw [List.map_append]
    refine h.distinct.append h'.distinct ?_
    intro key hkey hkey'
    obtain ⟨r, hr, rfl⟩ := List.mem_map.1 hkey
    obtain ⟨r', hr', heq⟩ := List.mem_map.1 hkey'
    obtain ⟨cause, token, rfl, hplace⟩ := h.inside r hr
    obtain ⟨cause', token', rfl, hplace'⟩ := h'.inside r' hr'
    have hmessage : cause'.message = cause.message := congrArg (fun key => key.2.1) heq
    have htoken : token' = token := Option.some.inj (congrArg (fun key => key.2.2) heq)
    obtain ⟨o, ho', ho⟩ := EvaluationCause.exists_occasion hmessage
    exact hsplit.apart token.column o (hplace o ho) (htoken ▸ hplace' o ho')

end Once

namespace Act

variable {σ α β : Type} {P Q R : Places}

/-- An action that reports at some places only, and nothing twice. -/
protected def Once (P : Places) (x : Act σ α) : Prop := ∀ s, Sm83Asm.Once P (x s).reports

/-- A value that is known is given without a report. -/
theorem once_pure (a : α) : (pure a : Act σ α).Once P := fun _ => .nil

/-- An error that is said at its token. -/
theorem once_fault {cause : EvaluationCause} {token : Token}
    (h : ∀ o ∈ cause.occasions, P token.column o) : (fault cause token : Act σ Unit).Once P :=
  fun _ => .singleton h

/-- A report, and on with a value. -/
theorem once_reported {cause : EvaluationCause} {token : Token}
    (h : ∀ o ∈ cause.occasions, P token.column o) (a : α) :
    (do fault cause token; return a : Act σ α).Once P := fun _ => .singleton h

namespace Once

variable {x : Act σ α} {f : α → Act σ β}

theorem mono (h : x.Once P) (hPR : ∀ c o, P c o → R c o) : x.Once R := fun s => (h s).mono hPR

/-- What is said first and what is said then are told apart by their places. -/
theorem bind (hx : x.Once P) (hf : ∀ a, (f a).Once Q) (hsplit : R.Splits P Q) :
    (x >>= f).Once R := fun s => (hx s).append (hf _ _) hsplit

theorem map (h : x.Once P) (f : α → β) : (f <$> x).Once P := by
  intro s
  rw [map_apply]
  exact h s

/-- What is made of a value without a report. -/
theorem bind_pure (h : x.Once P) (f : α → β) : (x >>= fun a => pure (f a)).Once P := by
  intro s
  rw [bind_apply, pure_apply, List.append_nil]
  exact h s

theorem evaluating {x : Act Random α} (h : x.Once P) : (Act.evaluating x).Once P :=
  fun s => h s.random

theorem linking {x : Act Linkage α} (h : x.Once P) : (Act.linking x).Once P :=
  fun s => h s.linkage

theorem drawing {x : Act Random α} (h : x.Once P) : (Act.drawing x).Once P :=
  h.evaluating.linking

end Once

end Act

/-! ## Expressions -/

namespace Expr

mutual

/-- The columns of the tokens of an expression, its own first. -/
def columns : Expr → List Nat
  | .number t | .string t | .identifier t => [t.column]
  | .unary _ t e => t.column :: e.columns
  | .binary _ t l r => t.column :: (l.columns ++ r.columns)
  | .call t args => t.column :: allColumns args
  | .bracket t e => t.column :: e.columns
  | .index t b e => t.column :: (b.columns ++ e.columns)

@[inherit_doc columns]
def allColumns : List Expr → List Nat
  | [] => []
  | e :: es => e.columns ++ allColumns es

end

mutual

/-- The string literals of an expression. -/
def literals : Expr → List Token
  | .number _ | .identifier _ => []
  | .string t => [t]
  | .unary _ _ e => e.literals
  | .binary _ _ l r => l.literals ++ r.literals
  | .call _ args => allLiterals args
  | .bracket _ e => e.literals
  | .index _ b e => b.literals ++ e.literals

@[inherit_doc literals]
def allLiterals : List Expr → List Token
  | [] => []
  | e :: es => e.literals ++ allLiterals es

end

/-- The columns of the tokens of an expression but its own. -/
def inner (e : Expr) : List Nat := e.columns.tail

/-- The columns of an expression are that of its own token and those inside of it. -/
theorem columns_eq (e : Expr) : e.columns = e.token.column :: e.inner := by
  cases e <;> rfl

/-- Where an expression reports while it is computed. -/
def ownPlaces (e : Expr) : Places := fun c o =>
  c = e.token.column ∧ o = .own ∨ c ∈ e.inner ∧ o ≠ .used

/-- Where an expression reports while it is computed and its value is turned into what is
expected. -/
abbrev places (e : Expr) : Places := .computed e.columns

/-- Where the expressions of a list report. -/
abbrev allPlaces (es : List Expr) : Places := .computed (allColumns es)

end Expr

/-- What goes wrong in finding the text of a literal is said once. -/
def State.SaysOnce (st : State) (literal : Token) : Prop :=
  ((st.expandString literal.text).2.map EvaluationCause.message).Nodup

instance (st : State) (literal : Token) : Decidable (st.SaysOnce literal) :=
  inferInstanceAs (Decidable (List.Nodup _))

/-- The tokens of an expression stand in different columns, and its string literals say everything
once. -/
structure Expr.Clear (st : State) (e : Expr) : Prop where
  distinct : e.columns.Nodup
  literals : ∀ t ∈ e.literals, st.SaysOnce t

@[inherit_doc Expr.Clear]
structure Expr.AllClear (st : State) (es : List Expr) : Prop where
  distinct : (Expr.allColumns es).Nodup
  literals : ∀ t ∈ Expr.allLiterals es, st.SaysOnce t

namespace Expr

variable {st : State} {t : Token} {e l r : Expr} {es : List Expr}

theorem Clear.unary {op : UnaryOp} (h : (Expr.unary op t e).Clear st) : e.Clear st :=
  ⟨(List.nodup_cons.1 h.distinct).2, h.literals⟩

/-- The two sides of an operator share no column. -/
theorem Clear.operands {op : BinaryOp} (h : (Expr.binary op t l r).Clear st) :
    (l.columns ++ r.columns).Nodup :=
  (List.nodup_cons.1 h.distinct).2

theorem Clear.left {op : BinaryOp} (h : (Expr.binary op t l r).Clear st) : l.Clear st :=
  ⟨h.operands.of_append_left, fun t ht => h.literals t (List.mem_append_left _ ht)⟩

theorem Clear.right {op : BinaryOp} (h : (Expr.binary op t l r).Clear st) : r.Clear st :=
  ⟨h.operands.of_append_right, fun t ht => h.literals t (List.mem_append_right _ ht)⟩

/-- The arguments of a call are clear together. -/
theorem Clear.args (h : (Expr.call t es).Clear st) : AllClear st es :=
  ⟨(List.nodup_cons.1 h.distinct).2, h.literals⟩

theorem Clear.bracket (h : (Expr.bracket t e).Clear st) : e.Clear st :=
  ⟨(List.nodup_cons.1 h.distinct).2, h.literals⟩

theorem Clear.index (h : (Expr.index t l e).Clear st) : e.Clear st :=
  ⟨(List.nodup_cons.1 h.distinct).2.of_append_right,
    fun t ht => h.literals t (List.mem_append_right _ ht)⟩

theorem AllClear.head (h : AllClear st (e :: es)) : e.Clear st :=
  ⟨List.Nodup.of_append_left h.distinct, fun t ht => h.literals t (List.mem_append_left _ ht)⟩

theorem AllClear.tail (h : AllClear st (e :: es)) : AllClear st es :=
  ⟨List.Nodup.of_append_right h.distinct, fun t ht => h.literals t (List.mem_append_right _ ht)⟩

/-- The token of an expression stands in one of its columns. -/
theorem mem_columns (e : Expr) : e.token.column ∈ e.columns := by
  rw [columns_eq]
  exact List.mem_cons_self

theorem allColumns_eq_flatMap (es : List Expr) : allColumns es = es.flatMap columns := by
  induction es with
  | nil => rfl
  | cons e es ih => rw [allColumns, ih, List.flatMap_cons]

theorem allColumns_append (es es' : List Expr) :
    allColumns (es ++ es') = allColumns es ++ allColumns es' := by
  simp only [allColumns_eq_flatMap, List.flatMap_append]

/-- Leaving out expressions leaves out their columns. -/
theorem allColumns_sublist {es' : List Expr} (hs : es'.Sublist es) :
    (allColumns es').Sublist (allColumns es) := by
  rw [allColumns_eq_flatMap, allColumns_eq_flatMap]
  exact hs.flatMap columns

theorem allLiterals_eq_flatMap (es : List Expr) : allLiterals es = es.flatMap literals := by
  induction es with
  | nil => rfl
  | cons e es ih => rw [allLiterals, ih, List.flatMap_cons]

/-- Some of the expressions, in their order, are as clear as all of them. -/
theorem AllClear.sublist {es' : List Expr} (h : AllClear st es) (hs : es'.Sublist es) :
    AllClear st es' := by
  refine ⟨h.distinct.sublist (allColumns_sublist hs), fun t ht => h.literals t ?_⟩
  rw [allLiterals_eq_flatMap] at ht ⊢
  exact (hs.flatMap Expr.literals).subset ht

/-- A column of one expression is a column of them all. -/
theorem mem_allColumns (he : e ∈ es) {c : Nat} (hc : c ∈ e.columns) : c ∈ allColumns es := by
  induction es with
  | nil => exact absurd he (by simp)
  | cons e' es ih =>
    rcases List.mem_cons.1 he with rfl | he
    · exact List.mem_append_left _ hc
    · exact List.mem_append_right _ (ih he)

/-- One of several expressions that are clear together is clear. -/
theorem AllClear.of_mem (h : AllClear st es) (he : e ∈ es) : e.Clear st := by
  induction es with
  | nil => exact absurd he (by simp)
  | cons e' es ih =>
    rcases List.mem_cons.1 he with rfl | he
    · exact h.head
    · exact ih h.tail he

/-- A cause found while an expression is computed has its place at the token of the expression. -/
theorem own_of_occasions {cause : EvaluationCause} (h : cause.occasions = [.own]) (e : Expr) :
    ∀ o ∈ cause.occasions, e.ownPlaces e.token.column o := fun _ ho =>
  .inl ⟨rfl, EvaluationCause.eq_of_mem_occasions h ho⟩

/-- What an expression says at its own token is said among its places. -/
theorem places_of_own (e : Expr) : ∀ c o, e.ownPlaces c o → e.places c o := by
  intro c o
  grind [ownPlaces, columns_eq]

/-- What is said of the value of an expression is none of what is said while it is computed. -/
theorem splits_coerced (h : e.columns.Nodup) :
    e.places.Splits e.ownPlaces (.one e.token.column .coerced) := by
  rw [columns_eq] at h
  constructor
  all_goals
    intro c o
    grind [ownPlaces, columns_eq, Places.one]

end Expr

/-! ## Values -/

namespace Scope

open Sm83Asm.Expr

variable (sc : Scope)

/-- Where the value of a token is turned into what is expected. -/
abbrev coerced (token : Token) : Places := .one token.column .coerced

/-- A result that may be an error is given, or the error is said on its own occasion. -/
theorem once_orElseReport {α : Type} (token : Token) (fallback : α)
    {x : Except EvaluationCause α} {o : Occasion} (hx : ∀ cause, x = .error cause →
      cause.occasions = [o]) : (orElseReport token fallback x).Once (.one token.column o) := by
  intro s
  cases x with
  | ok a => exact .nil
  | error cause =>
    exact .singleton (Places.one_of_occasions (hx cause rfl) token)

/-- A text that is no number has only one way to fail. -/
theorem cause_of_charValue {st : State} {text : String} {cause : EvaluationCause}
    (h : st.charValue text = .error cause) : cause = .notANumber text := by
  unfold State.charValue at h
  split at h
  · exact absurd h (by simp)
  · split at h
    · exact absurd h (by simp)
    · exact (Except.error.inj h).symm

/-- A value of the wrong kind is said where it was coerced. -/
theorem once_coerce (expected : Expected) (token : Token) (value : Value) :
    (sc.coerce expected token value).Once (coerced token) := by
  unfold coerce
  split
  · apply Act.Once.map (f := Value.number)
    apply once_orElseReport
    intro cause h
    rw [cause_of_charValue h]
    rfl
  · intro s
    exact .singleton (Places.one_of_occasions rfl token)
  · exact Act.once_pure _

/-- A text that is no number is said where it was coerced. -/
theorem once_toNumber (token : Token) (value : Value) :
    (sc.toNumber token value).Once (coerced token) :=
  (sc.once_coerce .number token value).map _

/-- Where an operator between two operands reports, once they have their values. -/
abbrev combinedPlaces (token leftToken rightToken : Token) : Places :=
  .either (coerced leftToken) (.either (coerced rightToken) (.one token.column .own))

/-- Both sides of an operator are coerced at their own tokens, and the operator fails at its own. -/
theorem once_combine (op : BinaryOp) {token leftToken rightToken : Token}
    (hne : leftToken.column ≠ rightToken.column) (left right : Value) :
    (sc.combine op token leftToken rightToken left right).Once
      (combinedPlaces token leftToken rightToken) := by
  unfold combine
  dsimp only
  split
  · exact Act.once_pure _
  · exact Act.once_pure _
  · refine (sc.once_toNumber leftToken left).bind (fun a =>
      (sc.once_toNumber rightToken right).bind (Q := .one token.column .own) (fun b => ?_)
        (Places.splits_either (by grind [Places.one])))
      (Places.splits_either (by grind [Places.one, Places.either]))
    split
    · exact Act.once_pure _
    · exact Act.once_reported (Places.one_of_occasions rfl token) _

/-- A function reports nothing about its arguments but a division by zero. -/
theorem reports_applyFunction (token : Token) (f : Function) (values : List Value) (s : Random) :
    (sc.applyFunction token f values s).reports = [] ∨
      (sc.applyFunction token f values s).reports = [.evaluation .divisionByZero token] := by
  have hpure : ∀ v : Value, ((pure v : Act Random Value) s).reports = [] ∨
      ((pure v : Act Random Value) s).reports = [.evaluation .divisionByZero token] :=
    fun _ => .inl rfl
  have hdraw : ∀ {α : Type} (g : α → Value) (draw : Random → α × Random),
      ((g <$> Act.modifyGet draw : Act Random Value) s).reports = [] ∨
        ((g <$> Act.modifyGet draw : Act Random Value) s).reports =
          [.evaluation .divisionByZero token] :=
    fun _ _ => .inl rfl
  cases f <;> try exact hpure _
  all_goals rcases values with _ | ⟨a | a, values⟩ <;> try first | exact hpure _ | exact hdraw _ _
  all_goals rcases values with _ | ⟨b | b, values⟩ <;> try exact hpure _
  all_goals rcases values with _ | ⟨c | c, values⟩ <;> try first | exact hpure _ | exact hdraw _ _
  all_goals try (rcases values with _ | ⟨d, values⟩ <;> exact hpure _)
  case div =>
    unfold applyFunction
    dsimp only
    cases fixedDiv? a b with
    | some n => exact hpure _
    | none => exact .inr rfl

/-- A function fails at its own token. -/
theorem once_applyFunction (token : Token) (f : Function) (values : List Value) :
    (sc.applyFunction token f values).Once (.one token.column .own) := by
  intro s
  rcases sc.reports_applyFunction token f values s with h | h
  · rw [h]
    exact .nil
  · rw [h]
    exact .singleton (Places.one_of_occasions rfl token)

/-- The text of a literal can fail for what stands in it, or never settle. -/
theorem isOfText_of_expandString (st : State) (literal : String) :
    ∀ cause ∈ (st.expandString literal).2, cause.isOfText = true := by
  have hpass : ∀ cs, ∀ cause ∈ (st.substitutePass cs).errors.map EvaluationCause.substitution,
      cause.isOfText = true := by
    intro cs cause hcause
    obtain ⟨error, -, rfl⟩ := List.mem_map.1 hcause
    rfl
  have hsettle : ∀ left done cs, ∀ cause ∈ (st.settle left done cs).2,
      cause.isOfText = true := by
    -- By the passes that are left: each pass reports what it finds, the last one that none is
    -- left.
    intro left
    induction left with
    | zero =>
      intro done cs cause hcause
      rw [State.settle] at hcause
      split at hcause
      · exact hpass cs cause hcause
      · rcases List.mem_append.1 hcause with hcause | hcause
        · exact hpass cs cause hcause
        · rw [List.mem_singleton.1 hcause]
          rfl
    | succ left ih =>
      intro done cs cause hcause
      rw [State.settle] at hcause
      split at hcause
      · exact hpass cs cause hcause
      · rcases List.mem_append.1 hcause with hcause | hcause
        · exact hpass cs cause hcause
        · exact ih _ _ cause hcause
  exact hsettle _ _ _

/-- Whatever is wrong with a literal is found where it stands. -/
theorem occasions_of_expandString (st : State) (literal : String) :
    ∀ cause ∈ (st.expandString literal).2, cause.occasions = [.own] := fun cause hcause =>
  EvaluationCause.occasions_of_isOfText (isOfText_of_expandString st literal cause hcause)

/-- A literal that says its error once. -/
theorem once_string {t : Token} (h : sc.state.SaysOnce t) :
    (sc.value (.string t)).Once (Expr.string t).ownPlaces := by
  intro s
  have hreports : (sc.value (.string t) s).reports =
      (sc.state.expandString t.text).2.map (Report.evaluation · t) := by
    rw [value]
    exact List.append_nil _
  rw [hreports]
  constructor
  · intro r hr
    obtain ⟨cause, hcause, rfl⟩ := List.mem_map.1 hr
    refine ⟨cause, t, rfl, ?_⟩
    exact own_of_occasions (occasions_of_expandString _ _ cause hcause) (.string t)
  · -- The keys differ only in the messages, and those are different.
    have hkeys : (((sc.state.expandString t.text).2.map (Report.evaluation · t)).map Report.key) =
        ((sc.state.expandString t.text).2.map EvaluationCause.message).map
          fun message => (Stage.evaluator, message, some t) := by
      rw [List.map_map, List.map_map]
      rfl
    rw [hkeys]
    exact h.map fun a b hab => congrArg (fun key => key.2.1) hab

variable {sc} in
/-- A call of something that is no function fails where it stands. -/
theorem occasions_of_callee {name : Token} {count : Nat} {cause : EvaluationCause}
    (h : sc.callee name count = .error cause) : cause.occasions = [.own] := by
  unfold callee at h
  split at h
  · cases h
    rfl
  · split at h
    · exact absurd h (by simp)
    · cases h
      rfl

mutual

/-- Computing an expression reports nothing twice, and at the token of the expression only what
belongs to computing it. -/
theorem once_value : ∀ e : Expr, e.Clear sc.state → (sc.value e).Once e.ownPlaces
  | .number t, _ => by
    rw [value]
    split
    · exact Act.once_pure _
    · exact Act.once_reported (own_of_occasions rfl (.number t)) _
  | .string t, h => sc.once_string (h.literals t (by simp [literals]))
  | .identifier t, _ => by
    rw [value]
    split
    · exact Act.once_pure _
    · apply Act.once_reported
      split
      · exact own_of_occasions rfl (.identifier t)
      · exact own_of_occasions rfl (.identifier t)
  | .unary op t e, h => by
    rw [value]
    have hnumber := (once_value e h.unary).bind (fun operand =>
        (sc.once_toNumber e.token operand).bind_pure fun n => Value.number (op.apply n))
      (splits_coerced h.unary.distinct)
    exact hnumber.mono fun c o hp => .inr hp
  | .binary op t l r, h => by
    rw [value]
    split
    · exact Act.once_pure _
    · have hdistinct := h.distinct
      rw [columns, columns_eq l, columns_eq r] at hdistinct
      have hne : l.token.column ≠ r.token.column := by grind
      -- The operands report in columns of their own; joining them reports at the operator, or
      -- turns one of them into what the operator expects.
      refine (once_value l h.left).bind (fun a => (once_value r h.right).bind
        (fun b => sc.once_combine op hne a b)
        (R := .either r.ownPlaces (combinedPlaces t l.token r.token)) ?_) ?_
      · apply Places.splits_either
        intro c o
        grind [ownPlaces, Places.one, Places.either]
      · constructor
        all_goals
          intro c o
          show _ → _
          have hplace : (Expr.binary op t l r).ownPlaces c o ↔
              (c = t.column ∧ o = .own ∨ c ∈ l.columns ++ r.columns ∧ o ≠ .used) := Iff.rfl
          grind [ownPlaces, columns_eq, Places.one, Places.either]
  | .call t args, h => by
    rw [value]
    split
    · rename_i cause hcause
      exact Act.once_reported (own_of_occasions (occasions_of_callee hcause) (.call t args)) _
    · rename_i f hf
      split
      · exact Act.once_reported (own_of_occasions rfl (.call t args)) _
      · split
        · exact Act.once_pure _
        · exact Act.once_pure _
        · refine (once_argumentValues f 0 args h.args).bind
            (fun values => sc.once_applyFunction t f values) ?_
          have hdistinct := (List.nodup_cons.1 h.distinct).1
          constructor
          all_goals
            intro c o
            have hplace : (Expr.call t args).ownPlaces c o ↔
                (c = t.column ∧ o = .own ∨ c ∈ allColumns args ∧ o ≠ .used) := Iff.rfl
            grind [Places.one]
  | .bracket t e, h => by
    rw [value]
    exact (once_value e h.bracket).mono fun c o hp => .inr (places_of_own e c o hp)
  | .index t b e, h => by
    rw [value]
    apply (once_value e h.index).mono
    intro c o hp
    have hplace := places_of_own e c o hp
    exact .inr ⟨List.mem_append_right _ hplace.1, hplace.2⟩

/-- Computing arguments reports nothing twice. -/
theorem once_argumentValues (f : Function) : ∀ (i : Nat) (es : List Expr),
    AllClear sc.state es → (sc.argumentValues f i es).Once (allPlaces es)
  | _, [], _ => by
    rw [argumentValues]
    exact Act.once_pure _
  | i, e :: es, h => by
    rw [argumentValues]
    have hdistinct : (e.columns ++ allColumns es).Nodup := h.distinct
    refine (once_value e h.head).bind (fun a => (sc.once_coerce _ e.token a).bind
      (fun v => (once_argumentValues f (i + 1) es h.tail).bind_pure fun vs => v :: vs)
      (R := .either (coerced e.token) (allPlaces es)) ?_) ?_
    · apply Places.splits_either
      intro c o
      grind [Places.one, columns_eq]
    · constructor
      all_goals
        intro c o
        have hplace : allPlaces (e :: es) c o ↔
            (c ∈ e.columns ++ allColumns es ∧ o ≠ .used) := Iff.rfl
        grind [ownPlaces, columns_eq, Places.one, Places.either]

end

end Scope

end Sm83Asm
