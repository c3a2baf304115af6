import Sm83Asm.Proofs.Eval.Reports

set_option autoImplicit false

/-!
# Constants can be evaluated

Whether an expression is constant and what its value is are found by two recursions over the
expression. They agree: where the first says yes, the second meets no name without a value, no
function that it does not know or that only the linker can compute, and nothing that would have to
be constant. What can still be said is about the values themselves.

`DEF` is constant whatever its argument is, and it evaluates an argument that is not a name. So the
two part where such an argument is not constant.

Main statements: `says_value` and `evaluate_of_isConstant`.
-/

namespace Sm83Asm

/-! ## Reports about constants -/

/-- Causes that are about the values in an expression: they have the wrong type or do not fit, or
there is a wrong number of them. Nothing is said to be unknown or not constant. -/
def EvaluationCause.isOfValue : EvaluationCause → Bool
  | .stringExpected | .notANumber _ | .invalidNumber _ | .divisionByZero | .functionArity _ => true
  | _ => false

/-- Causes that say that something in an expression is unknown or not constant. -/
def EvaluationCause.isOfUnknown : EvaluationCause → Bool
  | .undefined _ | .labelNotConstant _ | .notConstant | .unknownFunction _ | .onlyAtLinkTime _ =>
    true
  | _ => false

/-- A report about the values in an expression, or about the text of one of its string literals. -/
def AboutValues (literals : List Token) (r : Report) : Prop :=
  ∃ cause t, r = .evaluation cause t ∧
    (cause.isOfValue = true ∨ cause.isOfText = true ∧ t ∈ literals)

theorem AboutValues.mono {literals more : List Token} {r : Report} (h : AboutValues literals r)
    (hsub : ∀ t ∈ literals, t ∈ more) : AboutValues more r := by
  obtain ⟨cause, t, rfl, hcause⟩ := h
  exact ⟨cause, t, rfl, hcause.imp id fun ⟨htext, ht⟩ => ⟨htext, hsub t ht⟩⟩

theorem EvaluationCause.isOfUnknown_eq_false {cause : EvaluationCause}
    (h : cause.isOfValue = true ∨ cause.isOfText = true) : cause.isOfUnknown = false := by
  cases cause <;> first | rfl | exact absurd h (by simp [isOfValue, isOfText])

namespace Act

variable {σ α β : Type} {P : Report → Prop}

/-- An action that reports only things of one kind. -/
def Says (P : Report → Prop) (x : Act σ α) : Prop := ∀ s, ∀ r ∈ (x s).reports, P r

theorem says_pure (a : α) : (pure a : Act σ α).Says P := by
  intro s r hr
  exact absurd hr (by simp)

/-- A report, and on with a value. -/
theorem says_reported {cause : EvaluationCause} {token : Token}
    (h : P (.evaluation cause token)) (a : α) :
    (do fault cause token; return a : Act σ α).Says P := by
  intro s r hr
  obtain rfl : r = .evaluation cause token := by simpa using hr
  exact h

namespace Says

variable {x : Act σ α} {f : α → Act σ β}

theorem bind (hx : x.Says P) (hf : ∀ a, (f a).Says P) : (x >>= f).Says P := by
  intro s
  exact List.forall_mem_append.2 ⟨hx s, hf _ _⟩

theorem map (hx : x.Says P) (g : α → β) : (g <$> x).Says P := by
  intro s
  rw [map_apply]
  exact hx s

theorem mono {literals more : List Token} (hx : x.Says (AboutValues literals))
    (hsub : ∀ t ∈ literals, t ∈ more) : x.Says (AboutValues more) :=
  fun s r hr => (hx s r hr).mono hsub

end Says

end Act

/-! ## Arguments of `DEF` -/

namespace Scope

variable (sc : Scope)

/-- Whether `DEF` can take an argument without asking the linker: a name, or a constant. -/
def isDefArgument (sc : Scope) : Expr → Bool
  | .identifier _ => true
  | e => sc.isConstant e

mutual

/-- Whether every argument of `DEF` in an expression is a name or constant. -/
def hasKnownDefs (sc : Scope) : Expr → Bool
  | .number _ | .string _ | .identifier _ => true
  | .unary _ _ e => sc.hasKnownDefs e
  | .binary _ _ l r => sc.hasKnownDefs l && sc.hasKnownDefs r
  | .call t args =>
    (Function.ofWord? t.text sc.state.extensions != some .defined || args.all sc.isDefArgument) &&
      sc.allHaveKnownDefs args
  | .bracket _ e => sc.hasKnownDefs e
  | .index _ b e => sc.hasKnownDefs b && sc.hasKnownDefs e

@[inherit_doc hasKnownDefs]
def allHaveKnownDefs (sc : Scope) : List Expr → Bool
  | [] => true
  | e :: es => sc.hasKnownDefs e && sc.allHaveKnownDefs es

end

/-! ## Evaluation -/

theorem says_coerce (literals : List Token) (expected : Expected) (token : Token) (value : Value) :
    (sc.coerce expected token value).Says (AboutValues literals) := by
  unfold coerce
  split
  · rename_i s
    refine Act.Says.map (x := orElseReport token 0 (sc.state.charValue s)) ?_ Value.number
    cases hs : sc.state.charValue s with
    | ok n => exact Act.says_pure n
    | error cause =>
      obtain rfl := cause_of_charValue hs
      exact Act.says_reported ⟨_, _, rfl, .inl rfl⟩ 0
  · exact Act.says_reported ⟨_, _, rfl, .inl rfl⟩ _
  · exact Act.says_pure _

theorem says_toNumber (literals : List Token) (token : Token) (value : Value) :
    (sc.toNumber token value).Says (AboutValues literals) :=
  (sc.says_coerce literals .number token value).map _

theorem says_combine (literals : List Token) (op : BinaryOp) (token leftToken rightToken : Token)
    (left right : Value) :
    (sc.combine op token leftToken rightToken left right).Says (AboutValues literals) := by
  unfold combine
  dsimp only
  split
  · exact Act.says_pure _
  · exact Act.says_pure _
  · refine (sc.says_toNumber literals leftToken left).bind fun a =>
      (sc.says_toNumber literals rightToken right).bind fun b => ?_
    split
    · exact Act.says_pure _
    · exact Act.says_reported ⟨_, _, rfl, .inl rfl⟩ _

theorem says_applyFunction (literals : List Token) (token : Token) (f : Function)
    (values : List Value) : (sc.applyFunction token f values).Says (AboutValues literals) := by
  intro s
  rcases sc.reports_applyFunction token f values s with h | h
  · simp [h]
  · rw [h]
    exact List.forall_mem_singleton.2 ⟨_, _, rfl, .inl rfl⟩

theorem says_string (t : Token) :
    (sc.value (.string t)).Says (AboutValues (Expr.string t).literals) := by
  intro s r hr
  rw [value] at hr
  obtain ⟨cause, hcause, rfl⟩ : ∃ cause ∈ (sc.state.expandString t.text).2,
      Report.evaluation cause t = r := by simpa using hr
  refine ⟨cause, t, rfl, .inr ⟨isOfText_of_expandString _ _ cause hcause, ?_⟩⟩
  exact List.mem_singleton_self t

variable {sc}

/-- Where a call is constant, the only fault of the function itself is a wrong number of
arguments. -/
theorem says_of_callee {t : Token} {args : List Expr} {cause : EvaluationCause}
    (hc : sc.isConstant (.call t args) = true) (h : sc.callee t args.length = .error cause) :
    ∃ f, cause = .functionArity f := by
  rw [isConstant] at hc
  unfold callee at h
  split at h
  · rename_i hnone
    simp [hnone] at hc
  · split at h
    · exact absurd h (by simp)
    · exact ⟨_, (Except.error.inj h).symm⟩

/-- The arguments of a constant call that are evaluated are constant. -/
theorem allConstant_of_call {t : Token} {args : List Expr} {f : Function}
    (hc : sc.isConstant (.call t args) = true) (hk : sc.hasKnownDefs (.call t args) = true)
    (hf : sc.callee t args.length = .ok f) (hisconst : f ≠ .isconst)
    (hname : ∀ name, f = .defined → args ≠ [.identifier name]) : sc.allConstant args = true := by
  obtain ⟨hword, harity⟩ := ofWord?_of_callee hf
  rw [isConstant, hword] at hc
  by_cases hdef : f = .defined
  · subst hdef
    obtain ⟨e, rfl⟩ : ∃ e, args = [e] := by
      rcases args with _ | ⟨e, _ | ⟨e', es⟩⟩
      · exact absurd harity (by decide)
      · exact ⟨e, rfl⟩
      · exact absurd harity (by simp [Function.arity, Arity.accepts, Arity.exactly])
    rw [hasKnownDefs, hword] at hk
    cases e <;> simp_all [isDefArgument, allConstant]
  · have halways : f.isAlwaysConstant = false := by
      cases f <;> first | rfl | exact absurd rfl hdef | exact absurd rfl hisconst
    simp only [halways, Bool.false_or, Bool.and_eq_true] at hc
    exact hc.2

theorem not_isLinkTime_of_isConstant {t : Token} {args : List Expr} {f : Function}
    (hc : sc.isConstant (.call t args) = true) (hf : sc.callee t args.length = .ok f) :
    f.isLinkTime = false := by
  rw [isConstant, (ofWord?_of_callee hf).1] at hc
  by_contra hl
  rw [Bool.not_eq_false] at hl
  have halways : f.isAlwaysConstant = false := by
    cases f <;> first | rfl | exact absurd hl (by decide)
  simp [hl, halways] at hc

/-! ## Constant expressions -/

variable (sc)

mutual

/-- While a constant is computed, something can be said about its values only. -/
theorem says_value : ∀ e : Expr, sc.isConstant e = true → sc.hasKnownDefs e = true →
    (sc.value e).Says (AboutValues e.literals)
  | .number t, _, _ => by
    rw [value]
    split
    · exact Act.says_pure _
    · exact Act.says_reported ⟨_, _, rfl, .inl rfl⟩ _
  | .string t, _, _ => sc.says_string t
  | .identifier t, hc, _ => by
    rw [isConstant, Bool.and_eq_true] at hc
    obtain ⟨v, hv⟩ := Option.isSome_iff_exists.1 hc.2
    rw [value, hv]
    exact Act.says_pure _
  | .unary op t e, hc, hk => by
    rw [isConstant] at hc
    rw [hasKnownDefs] at hk
    rw [value]
    exact (says_value e hc hk).bind fun operand =>
      (sc.says_toNumber _ e.token operand).bind fun n => Act.says_pure _
  | .binary op t l r, hc, hk => by
    rw [isConstant] at hc
    rw [hasKnownDefs, Bool.and_eq_true] at hk
    rw [value]
    split
    · exact Act.says_pure _
    · rename_i hnone
      rw [hnone, Option.isSome_none, Bool.false_or, Bool.and_eq_true] at hc
      have hl : (sc.value l).Says (AboutValues (Expr.binary op t l r).literals) :=
        (says_value l hc.1 hk.1).mono fun _ => List.mem_append_left _
      have hr : (sc.value r).Says (AboutValues (Expr.binary op t l r).literals) :=
        (says_value r hc.2 hk.2).mono fun _ => List.mem_append_right _
      exact hl.bind fun a => hr.bind fun b => sc.says_combine _ op t l.token r.token a b
  | .call t args, hc, hk => by
    rw [value]
    split
    · rename_i cause hcause
      obtain ⟨f, rfl⟩ := says_of_callee hc hcause
      exact Act.says_reported ⟨_, _, rfl, .inl rfl⟩ _
    · rename_i f hf
      -- What is left to the linker is not constant, and two functions never compute their
      -- argument.
      rw [not_isLinkTime_of_isConstant hc hf]
      split
      · exact absurd ‹false = true› (by simp)
      · split
        · exact Act.says_pure _
        · exact Act.says_pure _
        · rename_i hisconst hname
          have hargs := allConstant_of_call hc hk hf (fun h => hisconst h) fun name h h' =>
            hname name h h'
          rw [hasKnownDefs, Bool.and_eq_true] at hk
          exact (says_argumentValues f 0 args hargs hk.2).bind fun values =>
            sc.says_applyFunction _ t f values
  | .bracket t e, hc, hk => by
    rw [isConstant] at hc
    rw [hasKnownDefs] at hk
    rw [value]
    exact says_value e hc hk
  | .index t b e, hc, hk => by
    rw [isConstant, Bool.and_eq_true] at hc
    rw [hasKnownDefs, Bool.and_eq_true] at hk
    rw [value]
    exact (says_value e hc.2 hk.2).mono fun _ => List.mem_append_right _

/-- While constant arguments are computed, something can be said about their values only. -/
theorem says_argumentValues (f : Function) : ∀ (i : Nat) (es : List Expr),
    sc.allConstant es = true → sc.allHaveKnownDefs es = true →
      (sc.argumentValues f i es).Says (AboutValues (Expr.allLiterals es))
  | _, [], _, _ => by
    rw [argumentValues]
    exact Act.says_pure _
  | i, e :: es, hc, hk => by
    rw [allConstant, Bool.and_eq_true] at hc
    rw [allHaveKnownDefs, Bool.and_eq_true] at hk
    rw [argumentValues]
    have hfirst : (sc.value e).Says (AboutValues (Expr.allLiterals (e :: es))) :=
      (says_value e hc.1 hk.1).mono fun _ => List.mem_append_left _
    have hothers : (sc.argumentValues f (i + 1) es).Says
        (AboutValues (Expr.allLiterals (e :: es))) :=
      (says_argumentValues f (i + 1) es hc.2 hk.2).mono fun _ => List.mem_append_right _
    exact hfirst.bind fun a => (sc.says_coerce _ _ e.token a).bind fun v =>
      hothers.bind fun vs => Act.says_pure _

end

theorem says_evaluate (expected : Expected) {e : Expr} (hc : sc.isConstant e = true)
    (hk : sc.hasKnownDefs e = true) : (sc.evaluate expected e).Says (AboutValues e.literals) := by
  unfold evaluate
  rw [if_pos hc]
  exact (sc.says_value e hc hk).bind fun v => sc.says_coerce _ expected e.token v

/-- Whatever is expected of a constant, evaluating it draws random numbers and adds diagnostics, and
nothing else changes. Every diagnostic is about a value, or about the text of a string literal of
the expression, and none says that something is unknown or not constant. -/
theorem evaluate_of_isConstant (sc : Scope) (expected : Expected) (e : Expr)
    (hc : sc.isConstant e = true) (hk : sc.hasKnownDefs e = true) :
    ∃ random added, (sc.state.evaluating (sc.evaluate expected e)).2 =
        { sc.state with random, diagnostics := sc.state.diagnostics ++ added } ∧
      ∀ d ∈ added, ∃ cause t, d.report = .evaluation cause t ∧ cause.isOfUnknown = false ∧
        (cause.isOfValue = true ∨ cause.isOfText = true ∧ t ∈ e.literals) := by
  refine ⟨_, _, rfl, fun d hd => ?_⟩
  obtain ⟨r, hr, rfl⟩ : ∃ r ∈ (sc.evaluate expected e sc.state.random).reports,
      ⟨r, sc.state.file, sc.state.line⟩ = d := by simpa using hd
  obtain ⟨cause, t, rfl, hcause⟩ := sc.says_evaluate expected hc hk _ r hr
  have hunknown := EvaluationCause.isOfUnknown_eq_false (hcause.imp id And.left)
  exact ⟨cause, t, rfl, hunknown, hcause⟩

/-- A section with two labels at its start, and nothing else that is defined. -/
def labelledScope : Scope where
  state :=
    { config := {}
      random := .ofSeed 0
      labels := ⟨[("first", ⟨"a.asm", 2, 2, "main", 0, 0, false⟩),
        ("second", ⟨"a.asm", 3, 3, "main", 0, 0, false⟩)]⟩
      sections := ⟨[("main", ⟨"main", "a.asm", .rom0, none, none, none, #[]⟩)]⟩
      current := some "main" }

/-- A word in a column of the first line. -/
def wordAt (text : String) (column : Nat) : Token := ⟨.identifier, text, 1, column⟩

/-- The expression `DEF(later) + STRLEN("{later}") / (second - first)`. -/
def faultyConstant : Expr :=
  .binary .add (wordAt "+" 11) (.call (wordAt "DEF" 0) [.identifier (wordAt "later" 4)])
    (.binary .div (wordAt "/" 31)
      (.call (wordAt "STRLEN" 13) [.string (wordAt "\"\x7blater\x7d\"" 20)])
      (.binary .sub (wordAt "-" 41) (.identifier (wordAt "second" 34))
        (.identifier (wordAt "first" 43))))

theorem evaluate_of_isConstant_faultyConstant :
    labelledScope.isConstant faultyConstant = true ∧
      labelledScope.hasKnownDefs faultyConstant = true ∧
      ((labelledScope.evaluate .text faultyConstant (.ofSeed 0)).reports.length = 3 ∧
        ∃ random added, (labelledScope.state.evaluating
            (labelledScope.evaluate .text faultyConstant)).2 =
          { labelledScope.state with random, diagnostics := added } ∧
          ∀ d ∈ added, ∃ cause t, d.report = .evaluation cause t ∧ cause.isOfUnknown = false ∧
            (cause.isOfValue = true ∨ cause.isOfText = true ∧ t ∈ faultyConstant.literals)) := by
  have hc : labelledScope.isConstant faultyConstant = true := by decide +kernel
  have hk : labelledScope.hasKnownDefs faultyConstant = true := by decide +kernel
  obtain ⟨random, added, hstate, hadded⟩ :=
    evaluate_of_isConstant labelledScope .text faultyConstant hc hk
  refine ⟨hc, hk, by decide +kernel, random, added, ?_, hadded⟩
  rw [hstate]
  simp [labelledScope]

/-- The argument `later + 1` of `DEF` is evaluated, although `DEF` is constant. -/
example :
    let e : Expr := .call (wordAt "DEF" 0)
      [.binary .add (wordAt "+" 10) (.identifier (wordAt "later" 4)) (.number (wordAt "1" 12))]
    labelledScope.isConstant e = true ∧ (labelledScope.value e (.ofSeed 0)).reports.head? =
      some (.evaluation (.undefined "later") (wordAt "later" 4)) := by
  decide +kernel

end Scope

end Sm83Asm
