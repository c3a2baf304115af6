import Sm83Asm.Proofs.Link.Compile

set_option autoImplicit false

/-!
# Deferred evaluation

An expression that is not constant is compiled for the linker's stack machine. This module gives
such an expression a value directly, by recursion on the expression, for every assignment of
addresses to names, and compares the two: a program that was compiled without a report leaves
exactly that value (`run_compile_eq_meaning`).

Two texts can be compared with `==` and `!=`. The stack machine has numbers only, so a comparison
that is left to the linker compares the numbers of its operands, and there the two ways of
evaluating part when a charmap gives two texts one number (`deferred_text_comparison_differs`).
-/

namespace Sm83Asm

/-! ## Expressions without random numbers -/

/-- Functions that draw from the random source. -/
def Function.draws : Function → Bool
  | .randint | .randbyte | .randword | .randlong => true
  | _ => false

namespace Expr

mutual

/-- Whether an expression calls no function that draws from the random source. -/
def isSteady : Expr → Bool
  | .number _ | .string _ | .identifier _ => true
  | .unary _ _ e => e.isSteady
  | .binary _ _ l r => l.isSteady && r.isSteady
  | .call t args => !(Function.ofWord? t.text true).any Function.draws && allSteady args
  | .bracket _ e => e.isSteady
  | .index _ b e => b.isSteady && e.isSteady

/-- Whether some expressions call no function that draws from the random source. -/
def allSteady : List Expr → Bool
  | [] => true
  | e :: es => e.isSteady && allSteady es

end

end Expr

/-! ## Direct evaluation -/

/-- When two texts are compared as texts: always, or only where the comparison is constant. -/
inductive TextComparison where
  | always
  | beforeLinking
deriving DecidableEq, Repr

/-- The text of a value, if it is one. -/
def Value.text? : Value → Option String
  | .text s => some s
  | .number _ => none

/-- The answer to a question about a subject. -/
def Link.World.ask (w : Link.World) : Function → Link.Subject → Int32
  | .bank => w.bank
  | .sizeof => w.size
  | _ => w.start

namespace Scope

/-- The number that a value stands for. -/
def asNumber? (sc : Scope) : Value → Option Int32
  | .number n => some n
  | .text s => (sc.state.charValue s).toOption

/-- The value of a name: `@` has the address of its place, a name that has a value has that value,
and any other name the address of its full name. -/
def nameValue? (sc : Scope) (w : Link.World) (name : String) : Option Value :=
  if name == "@" then
    sc.state.current.map fun place =>
      .number (w.address (State.locationName place (sc.here?.getD 0)))
  else
    match sc.state.lookup? name with
    | some value => some value
    | none => (sc.state.qualify name).map fun full => .number (w.address full)

/-- The value of an operator between two values, which `==` and `!=` may compare as texts. -/
def combined? (sc : Scope) (asTexts : Bool) (op : BinaryOp) (a b : Value) : Option Value :=
  match asTexts, op, a, b with
  | true, .equal, .text s, .text t => some (.number (truth (s == t)))
  | true, .notEqual, .text s, .text t => some (.number (truth (s != t)))
  | _, op, a, b => do
    let m ← sc.asNumber? a
    let n ← sc.asNumber? b
    return .number (Link.binaryValue op m n)

/-- The name in an argument of `BANK` or `SIZEOF` that asks for a symbol. -/
def symbolArgument? : Function → Expr → Option String
  | .startof, _ => none
  | _, .identifier t => some t.text
  | _, _ => none

/-- The subject that a name stands for. -/
def namedSubject? (sc : Scope) (name : String) : Option Link.Subject :=
  if name == "@" then some .here else (sc.state.qualify name).map .symbol

/-- The subject of a question, from its arguments and their values. -/
def subject? (sc : Scope) (f : Function) : List Expr → List (Option Value) → Option Link.Subject
  | [], _ => some .here
  | e :: _, values =>
    match symbolArgument? f e with
    | some name => sc.namedSubject? name
    | none => (values.head?.join.bind Value.text?).map .place

/-- An argument as a function wants it. -/
def wanted? (sc : Scope) (f : Function) (i : Nat) (value : Value) : Option Value :=
  if f.takesText i then value.text?.map .text else (sc.asNumber? value).map .number

/-- The arguments of a function from a position on, each as the function wants it. -/
def arguments? (sc : Scope) (f : Function) (i : Nat) : List (Option Value) → Option (List Value)
  | [] => some []
  | value :: rest => do
    let first ← value.bind (sc.wanted? f i)
    let others ← sc.arguments? f (i + 1) rest
    return first :: others

/-- The value of a function. -/
def functionValue? (sc : Scope) (t : Token) (f : Function) (args : List Value) : Option Value :=
  match f, args with
  | .high, [.number n] => some (.number ((n >>> 8) &&& 0xFF))
  | .low, [.number n] => some (.number (n &&& 0xFF))
  | _, _ => (sc.applyFunction t f args).quiet? sc.state.random

/-- The value of a call, from its arguments and their values. The questions `DEF` and `ISCONST` are
about the state, and evaluation answers them. -/
def callValue? (sc : Scope) (w : Link.World) (t : Token) (args : List Expr)
    (values : List (Option Value)) : Option Value :=
  match sc.callee t args.length with
  | .error _ => none
  | .ok f =>
    if f.isLinkTime then (sc.subject? f args values).map fun subject => .number (w.ask f subject)
    else if f.isAlwaysConstant then (sc.value (.call t args)).quiet? sc.state.random
    else (sc.arguments? f 0 values).bind (sc.functionValue? t f)

mutual

/-- The value of an expression where the linker knows `w`, computed without folding anything. -/
def meaning (sc : Scope) (w : Link.World) (mode : TextComparison) : Expr → Option Value
  | .number t => (Numeral.value? sc.state.options t.text).map .number
  | .string t =>
    match sc.state.expandString t.text with
    | (text, []) => some (.text text)
    | (_, _ :: _) => none
  | .identifier t => sc.nameValue? w t.text
  | .unary op _ e => do
    let n ← (sc.meaning w mode e).bind sc.asNumber?
    return .number (op.apply n)
  | .binary op t l r => do
    let a ← sc.meaning w mode l
    let b ← sc.meaning w mode r
    sc.combined? (mode == .always || sc.isConstant (.binary op t l r)) op a b
  | .call t args => sc.callValue? w t args (sc.meanings w mode args)
  | .bracket _ e => sc.meaning w mode e
  | .index _ _ e => sc.meaning w mode e

/-- The values of some expressions. -/
def meanings (sc : Scope) (w : Link.World) (mode : TextComparison) :
    List Expr → List (Option Value)
  | [] => []
  | e :: es => sc.meaning w mode e :: sc.meanings w mode es

end

/-! ## Assignments of addresses -/

/-- A name stands for an offset of a section: a label, or the place that `@` stands for. -/
inductive Marks (sc : Scope) : String → String → Nat → Prop
  | label {name : String} {l : Label} (h : sc.state.labels.get? name = some l) :
      Marks sc name l.place l.offset
  | location {place : String} {offset : Nat} (hc : sc.state.current = some place)
      (hh : sc.here? = some offset) : Marks sc (State.locationName place offset) place offset

/-- Addresses in one section differ as the offsets do. -/
def Consistent (sc : Scope) (w : Link.World) : Prop :=
  ∀ a b place m n, sc.Marks a place m → sc.Marks b place n →
    w.address a - w.address b = Int32.ofNat m - Int32.ofNat n

/-! ## Evaluation of steady expressions -/

/-- A function that is known without the extensions is known with them. -/
theorem ofWord?_true_of_ofWord? {word : String} {extensions : Bool} {f : Function}
    (h : Function.ofWord? word extensions = some f) : Function.ofWord? word true = some f := by
  simp only [Function.ofWord?, Option.filter_eq_some_iff] at h ⊢
  exact ⟨h.1, by simp⟩

/-- A steady call is of a function that draws no random numbers, with steady arguments. -/
theorem draws_of_isSteady_call {sc : Scope} {t : Token} {args : List Expr} {f : Function}
    (hs : (Expr.call t args).isSteady = true) (h : sc.callee t args.length = .ok f) :
    f.draws = false ∧ Expr.allSteady args = true := by
  simp only [Expr.isSteady, ofWord?_true_of_ofWord? (ofWord?_of_callee h).1, Bool.and_eq_true] at hs
  exact ⟨by simpa using hs.1, hs.2⟩

theorem settled_orElseReport {α : Type} (token : Token) (fallback : α)
    (x : Except EvaluationCause α) : (orElseReport token fallback x).Settled := by
  cases x with
  | ok a => exact Act.Settled.pure a
  | error cause => exact (Act.Settled.fault cause token).bind fun _ => Act.Settled.pure fallback

/-- Coercing a value draws no random numbers. -/
theorem settled_coerce (sc : Scope) (expected : Expected) (token : Token) (value : Value) :
    (sc.coerce expected token value).Settled := by
  unfold coerce
  split
  · exact (settled_orElseReport _ _ _).bind fun _ => Act.Settled.pure _
  · exact (Act.Settled.fault _ _).bind fun _ => Act.Settled.pure _
  · exact Act.Settled.pure _

/-- An operator draws no random numbers of its own. -/
theorem settled_combine (sc : Scope) (op : BinaryOp) (token leftToken rightToken : Token)
    (left right : Value) : (sc.combine op token leftToken rightToken left right).Settled := by
  unfold combine
  split
  · exact Act.Settled.pure _
  · exact Act.Settled.pure _
  · refine ((settled_coerce sc _ _ _).map _).bind fun a =>
      ((settled_coerce sc _ _ _).map _).bind fun b => ?_
    cases op.apply? a b with
    | some n => exact Act.Settled.pure _
    | none => exact (Act.Settled.fault _ _).bind fun _ => Act.Settled.pure _

/-- A function that draws no random numbers is settled by its arguments. -/
theorem settled_applyFunction (sc : Scope) (t : Token) {f : Function} (hf : f.draws = false)
    (values : List Value) : (sc.applyFunction t f values).Settled := by
  have hpure : ∀ v : Value, (pure v : Act Random Value).Settled := Act.Settled.pure
  cases f <;> try first | exact absurd hf (by decide) | exact hpure _
  -- The other functions look at one value after the other, at three of them at most.
  all_goals rcases values with _ | ⟨a | a, values⟩ <;> try exact hpure _
  all_goals rcases values with _ | ⟨b | b, values⟩ <;> try exact hpure _
  all_goals rcases values with _ | ⟨c | c, values⟩ <;> try exact hpure _
  all_goals try (rcases values with _ | ⟨d, values⟩ <;> exact hpure _)
  case div =>
    unfold applyFunction
    dsimp only
    split
    · exact hpure _
    · exact (Act.Settled.fault _ _).bind fun _ => hpure _

mutual

/-- Evaluating a steady expression draws no random number. -/
theorem settled_value (sc : Scope) : ∀ e : Expr, e.isSteady = true → (sc.value e).Settled
  | .number t, _ => by
    unfold value
    split
    · exact Act.Settled.pure _
    · exact (Act.Settled.fault _ _).bind fun _ => Act.Settled.pure _
  | .string t, _ => by
    unfold value
    exact (Act.Settled.tell _).bind fun _ => Act.Settled.pure _
  | .identifier t, _ => by
    unfold value
    split
    · exact Act.Settled.pure _
    · exact (Act.Settled.fault _ _).bind fun _ => Act.Settled.pure _
  | .unary op t e, hs => by
    unfold value
    exact (settled_value sc e hs).bind fun _ =>
      ((settled_coerce sc _ _ _).map _).bind fun _ => Act.Settled.pure _
  | .binary op t l r, hs => by
    simp only [Expr.isSteady, Bool.and_eq_true] at hs
    unfold value
    split
    · exact Act.Settled.pure _
    · exact (settled_value sc l hs.1).bind fun _ => (settled_value sc r hs.2).bind fun _ =>
        settled_combine sc _ _ _ _ _ _
  | .call t args, hs => by
    unfold value
    split
    · exact (Act.Settled.fault _ _).bind fun _ => Act.Settled.pure _
    · rename_i f hf
      obtain ⟨hd, ha⟩ := draws_of_isSteady_call hs hf
      split
      · exact (Act.Settled.fault _ _).bind fun _ => Act.Settled.pure _
      · split
        · exact Act.Settled.pure _
        · exact Act.Settled.pure _
        · exact (settled_argumentValues sc _ _ args ha).bind fun _ =>
            settled_applyFunction sc t hd _
  | .bracket t e, hs => by
    unfold value
    exact settled_value sc e hs
  | .index t b e, hs => by
    simp only [Expr.isSteady, Bool.and_eq_true] at hs
    unfold value
    exact settled_value sc e hs.2

/-- Steady arguments draw no random numbers. -/
theorem settled_argumentValues (sc : Scope) (f : Function) (i : Nat) :
    ∀ es : List Expr, Expr.allSteady es = true → (sc.argumentValues f i es).Settled
  | [], _ => by
    unfold argumentValues
    exact Act.Settled.pure _
  | e :: es, hs => by
    simp only [Expr.allSteady, Bool.and_eq_true] at hs
    unfold argumentValues
    exact (settled_value sc e hs.1).bind fun _ => (settled_coerce sc _ _ _).bind fun _ =>
      (settled_argumentValues sc f (i + 1) es hs.2).bind fun _ => Act.Settled.pure _

end

/-! ## Constants have their direct value

Each step of evaluation that makes no report gives what the direct evaluation gives. -/

/-- A value that is coerced to a number without a report has this number. -/
theorem asNumber?_of_toNumber {sc : Scope} {token : Token} {v : Value} {r : Random}
    (h : (sc.toNumber token v r).reports = []) :
    sc.asNumber? v = some (sc.toNumber token v r).value := by
  cases v with
  | number n => rfl
  | text s =>
    cases hc : sc.state.charValue s with
    | ok n => simp [asNumber?, toNumber, coerce, orElseReport, hc, Except.toOption, Value.toNumber]
    | error cause => simp [toNumber, coerce, orElseReport, hc] at h

/-- An argument that is coerced without a report is what the function wants. -/
theorem wanted?_of_coerce {sc : Scope} {f : Function} {i : Nat} {token : Token} {v : Value}
    {r : Random}
    (h : (sc.coerce (if f.takesText i then .text else .number) token v r).reports = []) :
    sc.wanted? f i v =
      some (sc.coerce (if f.takesText i then .text else .number) token v r).value := by
  cases ht : f.takesText i with
  | true =>
    cases v with
    | number n => simp [ht, coerce] at h
    | text s => simp [wanted?, ht, coerce, Value.text?]
  | false =>
    cases v with
    | number n => simp [wanted?, ht, coerce, asNumber?]
    | text s =>
      cases hc : sc.state.charValue s with
      | ok n => simp [wanted?, ht, coerce, asNumber?, orElseReport, hc, Except.toOption]
      | error cause => simp [ht, coerce, orElseReport, hc] at h

/-- An operator and its operands form a comparison of two texts. -/
def ComparesTexts (op : BinaryOp) (a b : Value) : Prop :=
  ∃ s t, a = .text s ∧ b = .text t ∧ (op = .equal ∨ op = .notEqual)

/-- An operator that does not compare texts coerces both sides to numbers. -/
theorem combine_of_not_comparesTexts (sc : Scope) {op : BinaryOp} {a b : Value}
    (h : ¬ ComparesTexts op a b) (token leftToken rightToken : Token) :
    sc.combine op token leftToken rightToken a b = (do
      let m ← sc.toNumber leftToken a
      let n ← sc.toNumber rightToken b
      match op.apply? m n with
      | some n => return .number n
      | none => do
        Act.fault .divisionByZero token
        return .number 0) := by
  unfold combine
  split
  · exact absurd ⟨_, _, rfl, rfl, Or.inl rfl⟩ h
  · exact absurd ⟨_, _, rfl, rfl, Or.inr rfl⟩ h
  · rfl

theorem combined?_of_not_comparesTexts (sc : Scope) {op : BinaryOp} {a b : Value}
    (h : ¬ ComparesTexts op a b) (asTexts : Bool) :
    sc.combined? asTexts op a b = (do
      let m ← sc.asNumber? a
      let n ← sc.asNumber? b
      return .number (Link.binaryValue op m n)) := by
  unfold combined?
  split
  · exact absurd ⟨_, _, rfl, rfl, Or.inl rfl⟩ h
  · exact absurd ⟨_, _, rfl, rfl, Or.inr rfl⟩ h
  · rfl

/-- Where texts are not compared, both sides count as numbers. -/
theorem combined?_false (sc : Scope) (op : BinaryOp) (a b : Value) :
    sc.combined? false op a b = (do
      let m ← sc.asNumber? a
      let n ← sc.asNumber? b
      return .number (Link.binaryValue op m n)) := by
  cases op <;> cases a <;> cases b <;> rfl

/-- An operator that reports nothing has the meaning of its value. -/
theorem combined?_of_combine {sc : Scope} {op : BinaryOp} {token leftToken rightToken : Token}
    {a b : Value} {r : Random}
    (h : (sc.combine op token leftToken rightToken a b r).reports = []) :
    sc.combined? true op a b = some (sc.combine op token leftToken rightToken a b r).value := by
  by_cases ht : ComparesTexts op a b
  · obtain ⟨s, t, rfl, rfl, rfl | rfl⟩ := ht <;> rfl
  · rw [combine_of_not_comparesTexts sc ht] at h ⊢
    rw [combined?_of_not_comparesTexts sc ht]
    simp only [Act.bind_apply, List.append_eq_nil_iff] at h ⊢
    obtain ⟨ha, hb, hop⟩ := h
    rw [asNumber?_of_toNumber ha, asNumber?_of_toNumber hb]
    cases hv : op.apply? (sc.toNumber leftToken a r).value
        (sc.toNumber rightToken b (sc.toNumber leftToken a r).state).value with
    | none => simp [hv] at hop
    | some n => simp [Link.binaryValue, hv]

/-- A function that reports nothing has the meaning of its value. -/
theorem functionValue?_of_applyFunction {sc : Scope} {t : Token} {f : Function}
    (hf : f.draws = false) {values : List Value} {r : Random}
    (h : (sc.applyFunction t f values r).reports = []) :
    sc.functionValue? t f values = some (sc.applyFunction t f values r).value := by
  unfold functionValue?
  split
  · rfl
  · rfl
  · obtain ⟨hv, hr⟩ := (settled_applyFunction sc t hf values).apply_eq r sc.state.random
    rw [hv]
    exact Act.quiet?_eq_some (hr ▸ h)

/-- A place has the address of its symbol. -/
theorem nameValue?_of_placeOf? {sc : Scope} (w : Link.World) {name place : String} {offset : Nat}
    (h : sc.placeOf? name = some (place, offset)) :
    ∃ full, sc.Marks full place offset ∧
      sc.nameValue? w name = some (.number (w.address full)) := by
  unfold placeOf? at h
  by_cases ha : (name == "@") = true
  · rw [if_pos ha] at h
    cases hc : sc.state.current with
    | none => simp [hc] at h
    | some here =>
      cases hh : sc.here? with
      | none => simp [hc, hh] at h
      | some n =>
        simp only [hc, hh, Option.some.injEq, Prod.mk.injEq] at h
        obtain ⟨rfl, rfl⟩ := h
        exact ⟨_, .location hc hh, by simp [nameValue?, ha, hc, hh]⟩
  · rw [if_neg ha] at h
    cases hl : sc.state.lookup? name with
    | some v => simp [hl] at h
    | none =>
      simp only [hl, Option.isSome_none, Bool.false_eq_true, if_false, Option.map_eq_some_iff,
        Option.bind_eq_some_iff, Prod.mk.injEq] at h
      obtain ⟨label, ⟨full, hq, hlabel⟩, rfl, rfl⟩ := h
      exact ⟨full, .label hlabel, by simp [nameValue?, ha, hl, hq]⟩

/-- Only a name has a location. -/
theorem exists_identifier_of_location? {sc : Scope} {e : Expr} {p : String × Nat}
    (h : sc.location? e = some p) : ∃ t, e = .identifier t ∧ sc.placeOf? t.text = some p := by
  cases e with
  | identifier t => exact ⟨t, rfl, h⟩
  | _ => simp [location?] at h

/-- The difference of two places in one section is that of their addresses. -/
theorem meaning_of_difference? {sc : Scope} {w : Link.World} (hw : sc.Consistent w)
    (mode : TextComparison) {op : BinaryOp} {t : Token} {l r : Expr} {n : Int32}
    (h : sc.difference? (.binary op t l r) = some n) :
    sc.meaning w mode (.binary op t l r) = some (.number n) := by
  obtain rfl : op = .sub := by cases op <;> simp [difference?] at h ⊢
  simp only [difference?, distance?] at h
  cases hl : sc.location? l with
  | none => simp [hl] at h
  | some a =>
    cases hr : sc.location? r with
    | none => simp [hl, hr] at h
    | some b =>
      obtain ⟨place, m⟩ := a
      obtain ⟨place', k⟩ := b
      by_cases hp : place = place'
      · subst hp
        simp only [hl, hr, beq_self_eq_true, if_true, Option.some.injEq] at h
        subst h
        -- Both operands are names, and the assignment knows how far their addresses lie apart.
        obtain ⟨tl, rfl, hl⟩ := exists_identifier_of_location? hl
        obtain ⟨tr, rfl, hr⟩ := exists_identifier_of_location? hr
        obtain ⟨x, hx, hxv⟩ := nameValue?_of_placeOf? w hl
        obtain ⟨y, hy, hyv⟩ := nameValue?_of_placeOf? w hr
        simp [meaning, hxv, hyv, combined?, asNumber?, Link.binaryValue, BinaryOp.apply?,
          hw x y place m k hx hy]
      · simp [hl, hr, hp] at h

/-- A call of an ordinary function evaluates its arguments and applies the function. -/
theorem value_call_of_ordinary {sc : Scope} {t : Token} {args : List Expr} {f : Function}
    (hf : sc.callee t args.length = .ok f) (hl : f.isLinkTime = false)
    (ha : f.isAlwaysConstant = false) :
    sc.value (.call t args) = (do
      let values ← sc.argumentValues f 0 args
      sc.applyFunction t f values) := by
  rw [value, hf]
  cases f <;> first | rfl | exact absurd ha (by decide) | exact absurd hl (by decide)

mutual

/-- The value that a constant is evaluated to, without a report, is its direct value. -/
theorem meaning_of_isConstant {sc : Scope} {w : Link.World} (hw : sc.Consistent w)
    (mode : TextComparison) : ∀ e : Expr, e.isSteady = true → sc.isConstant e = true →
      ∀ r, (sc.value e r).reports = [] → sc.meaning w mode e = some (sc.value e r).value
  | .number t, _, _, r, h => by
    cases hn : Numeral.value? sc.state.options t.text with
    | none => simp [value, hn] at h
    | some n => simp [meaning, value, hn]
  | .string t, _, _, r, h => by
    cases hx : sc.state.expandString t.text with
    | mk text causes =>
      cases causes with
      | nil => simp [meaning, value, hx]
      | cons cause rest => simp [value, hx] at h
  | .identifier t, _, hc, r, _ => by
    simp only [isConstant, Bool.and_eq_true, bne_iff_ne, ne_eq] at hc
    obtain ⟨v, hv⟩ := Option.isSome_iff_exists.1 hc.2
    simp [meaning, value, nameValue?, hc.1, hv]
  | .unary op t e, hs, hc, r, h => by
    simp only [value, Act.bind_apply, List.append_eq_nil_iff] at h
    have he := meaning_of_isConstant hw mode e hs hc r h.1
    simp [meaning, value, he, asNumber?_of_toNumber h.2.1]
  | .binary op t l r, hs, hc, s, h => by
    cases hd : sc.difference? (.binary op t l r) with
    | some n => simp [value, hd, meaning_of_difference? hw mode hd]
    | none =>
      -- Not folded as a whole, so both operands are constants.
      simp only [Expr.isSteady, Bool.and_eq_true] at hs
      have hboth : sc.isConstant l = true ∧ sc.isConstant r = true := by
        simpa [isConstant, hd] using hc
      simp only [value, hd, Act.bind_apply, List.append_eq_nil_iff] at h ⊢
      have hl := meaning_of_isConstant hw mode l hs.1 hboth.1 s h.1
      have hr := meaning_of_isConstant hw mode r hs.2 hboth.2 _ h.2.1
      simp [meaning, hl, hr, hc, combined?_of_combine h.2.2]
  | .call t args, hs, hc, r, h => by
    cases hf : sc.callee t args.length with
    | error cause => simp [value, hf] at h
    | ok f =>
      cases hl : f.isLinkTime with
      | true => simp [value, hf, hl] at h
      | false =>
        cases ha : f.isAlwaysConstant with
        | true =>
          -- The answer is about the state and does not depend on the random source.
          obtain ⟨hv, hr⟩ := (settled_value sc _ hs).apply_eq r sc.state.random
          simp only [meaning, callValue?, hf, hl, ha, if_true, Bool.false_eq_true, if_false]
          rw [hv]
          exact Act.quiet?_eq_some (hr ▸ h)
        | false =>
          obtain ⟨hd, hargs⟩ := draws_of_isSteady_call hs hf
          have hall : sc.allConstant args = true := by
            simpa [isConstant, (ofWord?_of_callee hf).1, ha, hl] using hc
          rw [value_call_of_ordinary hf hl ha] at h ⊢
          simp only [Act.bind_apply, List.append_eq_nil_iff] at h ⊢
          have hvalues := arguments?_of_allConstant hw mode f args 0 hargs hall r h.1
          simp only [meaning, callValue?, hf, hl, ha, Bool.false_eq_true, if_false, hvalues]
          exact functionValue?_of_applyFunction hd h.2
  | .bracket t e, hs, hc, r, h => by
    simp only [value] at h ⊢
    exact meaning_of_isConstant hw mode e hs hc r h
  | .index t b e, hs, hc, r, h => by
    simp only [Expr.isSteady, isConstant, Bool.and_eq_true] at hs hc
    simp only [value] at h ⊢
    exact meaning_of_isConstant hw mode e hs.2 hc.2 r h

/-- Constant arguments that report nothing have the meaning of their values. -/
theorem arguments?_of_allConstant {sc : Scope} {w : Link.World} (hw : sc.Consistent w)
    (mode : TextComparison) (f : Function) : ∀ (es : List Expr) (i : Nat),
      Expr.allSteady es = true → sc.allConstant es = true →
      ∀ r, (sc.argumentValues f i es r).reports = [] →
        sc.arguments? f i (sc.meanings w mode es) = some (sc.argumentValues f i es r).value
  | [], _, _, _, r, _ => by simp [meanings, arguments?, argumentValues]
  | e :: es, i, hs, hc, r, h => by
    simp only [Expr.allSteady, allConstant, Bool.and_eq_true] at hs hc
    simp only [argumentValues, Act.bind_apply, List.append_eq_nil_iff] at h ⊢
    have he := meaning_of_isConstant hw mode e hs.1 hc.1 r h.1
    have hes := arguments?_of_allConstant hw mode f es (i + 1) hs.2 hc.2 _ h.2.2.1
    simp [meanings, arguments?, he, hes, wanted?_of_coerce h.2.1]

end

/-! ## Compiled programs leave the direct value -/

/-- A constant number that reports nothing has the meaning of its value. -/
theorem number_of_isConstant {sc : Scope} {w : Link.World} (hw : sc.Consistent w)
    (mode : TextComparison) {e : Expr} (hs : e.isSteady = true) (hc : sc.isConstant e = true)
    {r : Random} (h : (sc.number e r).reports = []) :
    (sc.meaning w mode e).bind sc.asNumber? = some (sc.number e r).value := by
  have hnumber : sc.number e r = (do
      let v ← sc.value e
      sc.toNumber e.token v) r := by
    simp [number, evaluate, hc, toNumber]
  rw [hnumber] at h ⊢
  simp only [Act.bind_apply, List.append_eq_nil_iff] at h ⊢
  rw [meaning_of_isConstant hw mode e hs hc r h.1]
  exact asNumber?_of_toNumber h.2

/-- An expression whose text is computed without a report is a constant with that text. -/
theorem text_of_reports {sc : Scope} {w : Link.World} (hw : sc.Consistent w)
    (mode : TextComparison) {e : Expr} (hs : e.isSteady = true) {r : Random}
    (h : (sc.text e r).reports = []) :
    (sc.meaning w mode e).bind Value.text? = some (sc.text e r).value := by
  by_cases hc : sc.isConstant e = true
  · simp only [text, evaluate, hc, if_true, Act.map_apply, Act.bind_apply,
      List.append_eq_nil_iff] at h ⊢
    rw [meaning_of_isConstant hw mode e hs hc r h.1]
    cases hv : (sc.value e r).value with
    | number n => simp [hv, coerce] at h
    | text s => simp [coerce, Value.text?, Value.toText]
  · simp [text, evaluate, hc] at h

/-- The program of an outcome puts `n` on any stack, for every table that goes on from the one it
leaves. -/
def Leaves (w : Link.World) (o : Outcome Linkage Link.Program) (n : Int32) : Prop :=
  ∀ names, o.state.symbols.keys <+: names →
    ∀ stack, Link.run w names o.value stack = some (n :: stack)

/-- A program of one instruction that pushes a number. -/
theorem leaves_of_plain {w : Link.World} {o : Outcome Linkage Link.Program} {i : Link.Instr}
    {n : Int32} (hv : o.value = [i])
    (hi : ∀ names stack, Link.step w names i stack = some (n :: stack)) : Leaves w o n := by
  intro names _ stack
  rw [hv, Link.run, hi]
  rfl

/-- A program of one instruction that asks for a symbol. -/
theorem leaves_of_symbol {w : Link.World} {o : Outcome Linkage Link.Program} {i : Link.Instr}
    {n : Int32} {id : Nat} {name : String} (hk : o.state.symbols.keys[id]? = some name)
    (hv : o.value = [i])
    (hi : ∀ (names : List String) (stack : List Int32), names[id]? = some name →
      Link.step w names i stack = some (n :: stack)) : Leaves w o n := by
  intro names hnames stack
  have hname : names[id]? = some name := by
    obtain ⟨more, rfl⟩ := hnames
    rw [List.getElem?_append_left (List.getElem?_eq_some_iff.1 hk).1, hk]
  rw [hv, Link.run, hi names stack hname]
  rfl

/-- A program that goes on with the number that another one leaves. -/
theorem Leaves.append {w : Link.World} {x : Act Linkage Link.Program} {s : Linkage} {m n : Int32}
    (hx : Leaves w (x s) m) {q : Link.Program}
    (hq : ∀ names stack, Link.run w names q (m :: stack) = some (n :: stack)) :
    Leaves w ((do
      let program ← x
      return program ++ q : Act Linkage Link.Program) s) n := by
  intro names hnames stack
  show Link.run w names ((x s).value ++ q) stack = _
  rw [Link.run_append, hx names hnames stack]
  exact hq names stack

/-- The programs of both sides, and the operator behind them. -/
theorem Leaves.binary {w : Link.World} {x y : Act Linkage Link.Program} {s : Linkage} {m n : Int32}
    (hx : Leaves w (x s) m) (hy : Leaves w (y (x s).state) n)
    (hk : (x s).state.symbols.keys <+: (y (x s).state).state.symbols.keys) (op : BinaryOp) :
    Leaves w ((do
      let left ← x
      let right ← y
      return left ++ right ++ [.binary op] : Act Linkage Link.Program) s)
      (Link.binaryValue op m n) := by
  intro names hnames stack
  show Link.run w names ((x s).value ++ (y (x s).state).value ++ [.binary op]) stack = _
  rw [Link.run_append, Link.run_append, hx names (hk.trans hnames) stack]
  simp only [Option.bind_some]
  rw [hy names hnames (m :: stack)]
  rfl

/-- The high byte of a word is cut off before or after it is shifted. -/
theorem sshiftRight_and (b : BitVec 32) :
    (b &&& 0xFF00#32).sshiftRight 8 = b.sshiftRight 8 &&& 0xFF#32 := by
  apply BitVec.eq_of_getLsbD_eq
  intro i hi
  simp only [BitVec.getLsbD_sshiftRight, BitVec.getLsbD_and, BitVec.msb_and]
  -- The mask lets through exactly the eight bits that the shift moves to the bottom.
  by_cases hlow : i < 8
  · have hhigh : (0xFF00#32).getLsbD (8 + i) = true := by
      revert i
      decide
    have hbyte : (0xFF#32).getLsbD i = true := by
      clear hhigh
      revert i
      decide
    rw [if_pos (by omega), if_pos (by omega), hhigh, hbyte, Bool.and_true, Bool.and_true]
  · have hhigh : (0xFF00#32).getLsbD (8 + i) = false := by
      revert i
      decide
    have hbyte : (0xFF#32).getLsbD i = false := by
      clear hhigh
      revert i
      decide
    have hmsb : (0xFF00#32).msb = false := by decide
    simp [hhigh, hbyte, hmsb]

/-- The machine's way to the second lowest byte is the direct one. -/
theorem and_shiftRight_eq (n : Int32) : (n &&& 0xFF00) >>> 8 = (n >>> 8) &&& 0xFF :=
  Int32.toBitVec_inj.1 (sshiftRight_and n.toBitVec)

/-- A name that is left to the linker leaves the value of its symbol. -/
theorem leaves_compileName {sc : Scope} (w : Link.World) {t : Token} {s : Linkage}
    (hc : ¬ sc.isConstant (.identifier t) = true)
    (h : (sc.compileName (sc.here?.getD 0) t s).reports = []) :
    ∃ n, (sc.nameValue? w t.text).bind sc.asNumber? = some n ∧
      Leaves w (sc.compileName (sc.here?.getD 0) t s) n := by
  unfold compileName at h ⊢
  by_cases hat : (t.text == "@") = true
  · simp only [hat, if_true] at h ⊢
    cases hcur : sc.state.current with
    | none => simp [hcur, compileZero] at h
    | some place =>
      refine ⟨w.address (State.locationName place (sc.here?.getD 0)), ?_, ?_⟩
      · simp [nameValue?, hat, hcur, asNumber?]
      · exact leaves_of_symbol (State.getElem?_keys_locationId sc.state s.symbols _ _) rfl
          fun names stack hname => Link.step_address w stack hname
  · simp only [hat, Bool.false_eq_true, if_false] at h ⊢
    have hlook : sc.state.lookup? t.text = none := by
      simpa [isConstant, bne, hat] using hc
    cases hq : sc.state.qualify t.text with
    | none => simp [hq, compileZero] at h
    | some full =>
      refine ⟨w.address full, ?_, ?_⟩
      · simp [nameValue?, hat, hlook, hq, asNumber?]
      · exact leaves_of_symbol (State.getElem?_keys_symbolId sc.state s.symbols _) rfl
          fun names stack hname => Link.step_address w stack hname

/-- A question about a section, by the name that its argument has as a text. -/
theorem leaves_bySection {sc : Scope} {w : Link.World} (hw : sc.Consistent w)
    (mode : TextComparison) (f : Function) {e : Expr} (hs : e.isSteady = true) {s : Linkage}
    (h : (sc.text e s.random).reports = []) :
    ∃ name, (sc.meaning w mode e).bind Value.text? = some name ∧
      Leaves w ((do
        let name ← Act.evaluating (sc.text e)
        return [ofSection f name] : Act Linkage Link.Program) s) (w.ask f (.place name)) := by
  refine ⟨_, text_of_reports hw mode hs h, leaves_of_plain rfl fun names stack => ?_⟩
  cases f <;> rfl

/-- An argument that is no symbol names a section. -/
theorem compileQuery_of_section (sc : Scope) {f : Function} {e : Expr} (rest : List Expr)
    (h : symbolArgument? f e = none) :
    sc.compileQuery f (e :: rest) = (do
      let name ← Act.evaluating (sc.text e)
      return [ofSection f name]) := by
  cases e <;> cases f <;> first | rfl | simp [symbolArgument?] at h

/-- An argument that is a symbol is asked for by its number. -/
theorem compileQuery_of_symbol (sc : Scope) {f : Function} (hf : f = .bank ∨ f = .sizeof)
    (t : Token) (rest : List Expr) :
    sc.compileQuery f (.identifier t :: rest) =
      if t.text == "@" then return (ofHere? f).toList
      else
        match sc.state.qualify t.text with
        | none => compileZero (.localOutsideGlobal t.text) t
        | some name => do
          let id ← sc.symbol name
          return (ofSymbol? f id).toList := by
  rcases hf with rfl | rfl <;> rfl

/-- A question to the linker gets the answer about its subject. -/
theorem leaves_compileQuery {sc : Scope} {w : Link.World} (hw : sc.Consistent w)
    (mode : TextComparison) {f : Function} (hf : f.isLinkTime = true) {args : List Expr}
    (ha : f.arity.accepts args.length = true) (hs : Expr.allSteady args = true) {s : Linkage}
    (h : (sc.compileQuery f args s).reports = []) :
    ∃ subject, sc.subject? f args (sc.meanings w mode args) = some subject ∧
      Leaves w (sc.compileQuery f args s) (w.ask f subject) := by
  cases args with
  | nil =>
    refine ⟨.here, rfl, ?_⟩
    cases f <;> first | exact absurd hf (by decide) | exact absurd ha (by decide) | skip
    · exact leaves_of_plain rfl fun names stack => rfl
    · exact leaves_of_plain rfl fun names stack => rfl
  | cons e rest =>
    simp only [Expr.allSteady, Bool.and_eq_true] at hs
    cases hsym : symbolArgument? f e with
    | none =>
      rw [compileQuery_of_section sc rest hsym] at h ⊢
      have hr : (sc.text e s.random).reports = [] := by simpa using h
      obtain ⟨name, hname, hl⟩ := leaves_bySection hw mode f hs.1 hr
      exact ⟨_, by simp [subject?, hsym, meanings, hname], hl⟩
    | some name =>
      obtain ⟨t, rfl, rfl⟩ : ∃ t, e = .identifier t ∧ t.text = name := by
        cases e <;> cases f <;> simp_all [symbolArgument?]
      have hf' : f = .bank ∨ f = .sizeof := by
        cases f <;> simp [Function.isLinkTime, symbolArgument?] at hf hsym ⊢
      rw [compileQuery_of_symbol sc hf' t rest] at h ⊢
      by_cases hat : (t.text == "@") = true
      · refine ⟨.here, by simp [subject?, hsym, namedSubject?, hat], ?_⟩
        rw [if_pos hat]
        rcases hf' with rfl | rfl
        · exact leaves_of_plain rfl fun names stack => rfl
        · exact leaves_of_plain rfl fun names stack => rfl
      · rw [if_neg hat] at h ⊢
        cases hfull : sc.state.qualify t.text with
        | none => simp [hfull, compileZero] at h
        | some full =>
          refine ⟨.symbol full, by simp [subject?, hsym, namedSubject?, hat, hfull], ?_⟩
          have hk := State.getElem?_keys_symbolId sc.state s.symbols full
          rcases hf' with rfl | rfl
          · exact leaves_of_symbol hk rfl fun names stack => Link.step_bankOfSymbol w stack
          · exact leaves_of_symbol hk rfl fun names stack => Link.step_sizeOfSymbol w stack

/-- `HIGH` and `LOW` of an expression that has a number. -/
theorem meaning_byteOf {sc : Scope} {w : Link.World} {mode : TextComparison} {t : Token} {e : Expr}
    {f : Function} {m n : Int32} (hf : sc.callee t 1 = .ok f) (hl : f.isLinkTime = false)
    (ha : f.isAlwaysConstant = false) (ht : f.takesText 0 = false)
    (hv : sc.functionValue? t f [.number m] = some (.number n))
    (he : (sc.meaning w mode e).bind sc.asNumber? = some m) :
    (sc.meaning w mode (.call t [e])).bind sc.asNumber? = some n := by
  obtain ⟨v, hm, hn⟩ := Option.bind_eq_some_iff.1 he
  have hargs : sc.arguments? f 0 [some v] = some [.number m] := by
    simp [arguments?, wanted?, ht, hn]
  simp [meaning, meanings, callValue?, hf, hl, ha, hm, hargs, hv, asNumber?]

/-- A program that was compiled without a report leaves the direct value of its expression. -/
theorem leaves_compile {sc : Scope} {w : Link.World} (hw : sc.Consistent w) (e : Expr) :
    e.isSteady = true → ∀ s, (sc.compile (sc.here?.getD 0) e s).reports = [] →
      ∃ n, (sc.meaning w .beforeLinking e).bind sc.asNumber? = some n ∧
        Leaves w (sc.compile (sc.here?.getD 0) e s) n := by
  induction e using compile_induction sc with
  | constant e hc =>
    intro hs s h
    rw [compile_of_isConstant hc] at h ⊢
    have hr : (sc.number e s.random).reports = [] := by simpa using h
    exact ⟨_, number_of_isConstant hw _ hs hc hr, leaves_of_plain rfl fun names stack => rfl⟩
  | name t hc =>
    intro _ s h
    rw [compile, if_neg hc] at h ⊢
    simpa only [meaning] using leaves_compileName w hc h
  | unary op t e hc ih =>
    intro hs s h
    rw [compile, if_neg hc] at h ⊢
    obtain ⟨n, hn, hl⟩ := ih hs s (by simpa using h)
    refine ⟨op.apply n, by simp [meaning, hn, asNumber?], hl.append fun names stack => ?_⟩
    cases op <;> rfl
  | binary op t l r hc ihl ihr =>
    intro hs s h
    simp only [Expr.isSteady, Bool.and_eq_true] at hs
    rw [compile, if_neg hc] at h ⊢
    simp only [Act.bind_apply, List.append_eq_nil_iff] at h
    -- The right operand is compiled on the table that the left one leaves.
    obtain ⟨m, hm, hleft⟩ := ihl hs.1 s h.1
    obtain ⟨n, hn, hright⟩ := ihr hs.2 _ h.2.1
    obtain ⟨a, ha, hma⟩ := Option.bind_eq_some_iff.1 hm
    obtain ⟨b, hb, hnb⟩ := Option.bind_eq_some_iff.1 hn
    refine ⟨Link.binaryValue op m n, ?_, hleft.binary hright ?_ op⟩
    · -- A comparison that is not constant compares numbers in both ways of evaluating.
      have hfalse : (TextComparison.beforeLinking == .always || sc.isConstant (.binary op t l r)) =
          false := by simpa using hc
      have hv : sc.combined? false op a b = some (.number (Link.binaryValue op m n)) := by
        rw [combined?_false, hma, hnb]
        rfl
      simp [meaning, ha, hb, hfalse, hv, asNumber?]
    · exact (compiles_compile sc _ r _).grows.keys_prefix
  | unknown t args cause hc hf =>
    intro _ s h
    rw [compile, if_neg hc, hf] at h
    simp [compileZero] at h
  | high t e hc hf ih =>
    intro hs s h
    have hargs := (draws_of_isSteady_call hs hf).2
    simp only [Expr.allSteady, Bool.and_eq_true] at hargs
    rw [compile, if_neg hc] at h ⊢
    simp only [hf] at h ⊢
    obtain ⟨n, hn, hl⟩ := ih hargs.1 s (by simpa using h)
    refine ⟨_, meaning_byteOf hf rfl rfl rfl rfl hn, hl.append fun names stack => ?_⟩
    show some ((n &&& 0xFF00) >>> 8 :: stack) = some (((n >>> 8) &&& 0xFF) :: stack)
    rw [and_shiftRight_eq]
  | low t e hc hf ih =>
    intro hs s h
    have hargs := (draws_of_isSteady_call hs hf).2
    simp only [Expr.allSteady, Bool.and_eq_true] at hargs
    rw [compile, if_neg hc] at h ⊢
    simp only [hf] at h ⊢
    obtain ⟨n, hn, hl⟩ := ih hargs.1 s (by simpa using h)
    exact ⟨_, meaning_byteOf hf rfl rfl rfl rfl hn, hl.append fun names stack => rfl⟩
  | query t args f hc hf hl =>
    intro hs s h
    rw [compile_of_isLinkTime hc hf hl] at h ⊢
    obtain ⟨subject, hsub, hleaves⟩ := leaves_compileQuery hw .beforeLinking hl
      (ofWord?_of_callee hf).2 (draws_of_isSteady_call hs hf).2 h
    exact ⟨_, by simp [meaning, callValue?, hf, hl, hsub, asNumber?], hleaves⟩
  | ordinary t args f hc hf hl hhigh hlow =>
    intro _ s h
    rw [compile_of_ordinary hc hf hl hhigh hlow] at h
    simp [compileZero] at h
  | bracket t e hc ih =>
    intro hs s h
    rw [compile, if_neg hc] at h ⊢
    simpa only [meaning] using ih hs s h
  | index t b e hc ih =>
    intro hs s h
    simp only [Expr.isSteady, Bool.and_eq_true] at hs
    rw [compile, if_neg hc] at h ⊢
    simpa only [meaning] using ih hs.2 s h

/-- Compiling that adds no diagnostic makes no report. -/
theorem reports_of_diagnostics_eq {α : Type} {st : State} {x : Act Linkage α}
    (h : (st.linking x).2.diagnostics = st.diagnostics) :
    (x ⟨st.random, st.symbols⟩).reports = [] := by
  have hsize := congrArg Array.size h
  simp only [State.linking, State.record, Array.size_append, List.size_toArray,
    List.length_map] at hsize
  exact List.eq_nil_of_length_eq_zero (by omega)

/-! ## Main statement -/

/-- Deferred evaluation is direct evaluation. When an expression without random numbers is compiled
and no diagnostic is added, then for every assignment of addresses that fits the state the program
leaves one value, the number of the direct value of the expression; and the program is what the
linker reads from its bytes. -/
theorem run_compile_eq_meaning (sc : Scope) (w : Link.World) (hw : sc.Consistent w) (e : Expr)
    (hs : e.isSteady = true)
    (hd : (sc.state.linking (sc.compile (sc.here?.getD 0) e)).2.diagnostics =
      sc.state.diagnostics) :
    let (program, after) := sc.state.linking (sc.compile (sc.here?.getD 0) e)
    ∃ n, (sc.meaning w .beforeLinking e).bind sc.asNumber? = some n ∧
      Link.run w after.symbols.keys program [] = some [n] ∧
      ((∀ i ∈ program, i.Fits) → Link.read? (Link.bytes program) = some program) := by
  obtain ⟨n, hn, hl⟩ := leaves_compile hw e hs _ (reports_of_diagnostics_eq hd)
  exact ⟨n, hn, hl _ (List.prefix_refl _) [], Link.read?_bytes_of_fits _⟩

/-- A section of three bytes with a label in it, where `A` and `B` have one number. -/
def sampleScope : Scope where
  state :=
    { config := {}
      random := .ofSeed 0
      labels := ⟨[("lab", ⟨"a.asm", 2, 2, "main", 1, 0, false⟩)]⟩
      sections := ⟨[("main", ⟨"main", "a.asm", .rom0, none, none, none, #[0, 0, 0]⟩)]⟩
      charmap := ⟨[("A", 1), ("B", 1)]⟩
      current := some "main" }

/-- Addresses for the sample, whose section starts at `0x4000`. -/
def sampleWorld : Link.World where
  address name := if name = "lab" then 0x4001 else if name = "@main:3" then 0x4003 else 0x1234
  bank _ := 1
  size _ := 3
  start _ := 0x4000
  topPage n := n

theorem address_sample (name place : String) (n : Nat) (h : sampleScope.Marks name place n) :
    sampleWorld.address name = 0x4000 + Int32.ofNat n := by
  obtain ⟨h⟩ | ⟨hc, hh⟩ := h
  · obtain ⟨rfl, rfl⟩ : name = "lab" ∧ _ := by
      simpa [sampleScope] using Table.mem_entries_of_get? h
    rfl
  · obtain rfl : "main" = place := Option.some.inj hc
    obtain rfl : 3 = n := Option.some.inj hh
    rfl

theorem consistent_sample : sampleScope.Consistent sampleWorld := by
  intro a b place m n ha hb
  rw [address_sample a place m ha, address_sample b place n hb]
  grind

/-- A word of a sample expression. -/
def sampleToken (text : String) : Token := ⟨.identifier, text, 1, 0⟩

/-- The expression `HIGH(far) + (@ - lab)`, with a name that nothing defines. -/
def sampleDistance : Expr :=
  .binary .add (sampleToken "+") (.call (sampleToken "HIGH") [.identifier (sampleToken "far")])
    (.bracket (sampleToken "(") (.binary .sub (sampleToken "-") (.identifier (sampleToken "@"))
      (.identifier (sampleToken "lab"))))

theorem run_compile_sampleDistance :
    sampleScope.Consistent sampleWorld ∧ sampleDistance.isSteady = true ∧
      let (program, after) :=
        sampleScope.state.linking (sampleScope.compile (sampleScope.here?.getD 0) sampleDistance)
      after.diagnostics = sampleScope.state.diagnostics ∧
        Link.run sampleWorld after.symbols.keys program [] = some [0x14] := by
  refine ⟨consistent_sample, rfl, rfl, ?_⟩
  obtain ⟨n, hn, hrun, -⟩ :=
    run_compile_eq_meaning sampleScope sampleWorld consistent_sample sampleDistance rfl rfl
  obtain rfl : 0x14 = n := Option.some.inj hn
  exact hrun

/-! ## Comparisons of texts -/

/-- The expression `lab["A"] == "B"`, which is left to the linker because of its label. -/
def sampleComparison : Expr :=
  .binary .equal (sampleToken "==")
    (.index (sampleToken "[") (.identifier (sampleToken "lab")) (.string (sampleToken "\"A\"")))
    (.string (sampleToken "\"B\""))

/-- A literal of one character counts as its number in the character map. -/
theorem number_string {sc : Scope} {t : Token} {text : String} {n : Int32}
    (hs : sc.state.expandString t.text = (text, [])) (hn : sc.state.charValue text = .ok n)
    (r : Random) : sc.number (.string t) r = ⟨n, r, []⟩ := by
  have hc : sc.isConstant (.string t) = true := rfl
  have hvalue : sc.value (.string t) r = ⟨.text text, r, []⟩ := by simp [value, hs]
  have hcoerce : sc.coerce .number t (.text text) r = ⟨.number n, r, []⟩ := by
    simp [coerce, orElseReport, hn]
  simp [number, evaluate, hc, hvalue, Expr.token, hcoerce, Value.toNumber]

theorem expandString_sampleA : sampleScope.state.expandString "\"A\"" = ("A", []) := by
  decide +kernel

theorem expandString_sampleB : sampleScope.state.expandString "\"B\"" = ("B", []) := by
  decide +kernel

theorem compile_sampleComparison (location : Nat) (s : Linkage) :
    sampleScope.compile location sampleComparison s =
      ⟨[.int 1, .int 1, .binary .equal], s, []⟩ := by
  have hindex : sampleScope.compile location (.index (sampleToken "[")
      (.identifier (sampleToken "lab")) (.string (sampleToken "\"A\""))) s = ⟨[.int 1], s, []⟩ := by
    rw [compile, if_neg (by decide), compile_of_isConstant rfl]
    simp [number_string (t := sampleToken _) expandString_sampleA rfl]
  rw [sampleComparison, compile, if_neg (by decide), compile_of_isConstant (e := .string _) rfl]
  simp [hindex, number_string (t := sampleToken _) expandString_sampleB rfl]

theorem meaning_sampleComparison :
    sampleScope.meaning sampleWorld .always sampleComparison = some (.number 0) := by
  simp [sampleComparison, sampleToken, meaning, expandString_sampleA, expandString_sampleB,
    combined?, truth]

/-- Where texts are always compared as texts, direct evaluation is another thing: the linker is
left to compare two numbers. -/
theorem deferred_text_comparison_differs :
    ¬ ∀ (sc : Scope) (w : Link.World) (e : Expr), sc.Consistent w → e.isSteady = true →
      let (program, after) := sc.state.linking (sc.compile (sc.here?.getD 0) e)
      after.diagnostics = sc.state.diagnostics →
        ∃ n, (sc.meaning w .always e).bind sc.asNumber? = some n ∧
          Link.run w after.symbols.keys program [] = some [n] := by
  intro h
  have hd : (sampleScope.state.linking
      (sampleScope.compile (sampleScope.here?.getD 0) sampleComparison)).2.diagnostics = #[] := by
    simp only [State.linking, compile_sampleComparison]
    rfl
  obtain ⟨n, hn, hrun⟩ := h sampleScope sampleWorld sampleComparison consistent_sample rfl hd
  obtain rfl : 0 = n := by
    rw [meaning_sampleComparison] at hn
    exact Option.some.inj hn
  simp only [compile_sampleComparison] at hrun
  exact absurd hrun (by decide)

end Scope

end Sm83Asm
