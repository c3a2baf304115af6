import Sm83Asm.Proofs.Eval.Reports
import Sm83Asm.Proofs.Link.Jump

set_option autoImplicit false

/-!
# Where compiling reports

An expression that must be constant, one that is left to the linker, and the target of a jump
report nothing twice when the tokens stand in different columns and no literal has a fault twice.
What is said when the value is used is told apart from all of that.

Main statements: `once_evaluate`, `once_compile`, `once_valueOrPatch` and `once_jumpTarget?`.
-/

namespace Sm83Asm.Scope

open Sm83Asm.Expr

variable (sc : Scope)

/-! ## Constants -/

/-- A cause found while an expression is computed has its place at the token of the expression. -/
theorem places_of_occasions {cause : EvaluationCause} (h : cause.occasions = [.own]) (e : Expr) :
    ∀ o ∈ cause.occasions, e.places e.token.column o := fun o ho =>
  places_of_own e _ o (own_of_occasions h e o ho)

/-- A cause found in using the value of an expression has its place at the token as well. -/
theorem used_of_occasions {cause : EvaluationCause} (h : cause.occasions = [.used]) (e : Expr) :
    ∀ o ∈ cause.occasions, Places.used e.columns e.token.column o := fun _ ho =>
  ⟨mem_columns e, EvaluationCause.eq_of_mem_occasions h ho⟩

theorem once_evaluate (expected : Expected) {e : Expr} (h : e.Clear sc.state) :
    (sc.evaluate expected e).Once e.places := by
  unfold evaluate
  split
  · exact (sc.once_value e h).bind (fun v => sc.once_coerce expected e.token v)
      (splits_coerced h.distinct)
  · apply Act.once_reported
    apply places_of_occasions
    split
    · split
      · rfl
      · rfl
    · rfl

theorem once_number {e : Expr} (h : e.Clear sc.state) : (sc.number e).Once e.places :=
  (sc.once_evaluate .number h).map _

theorem once_text {e : Expr} (h : e.Clear sc.state) : (sc.text e).Once e.places :=
  (sc.once_evaluate .text h).map _

theorem once_constant? {e : Expr} (h : e.Clear sc.state) : (sc.constant? e).Once e.places := by
  unfold constant?
  split
  · exact (sc.once_number h).map _
  · exact Act.once_pure _

/-! ## Programs for the linker -/

theorem once_compileZero {cause : EvaluationCause} (h : cause.occasions = [.own]) (e : Expr) :
    (compileZero cause e.token).Once e.places :=
  Act.once_reported (places_of_occasions h e) _

theorem once_compileName (location : Nat) (t : Token) :
    (sc.compileName location t).Once (Expr.identifier t).places := by
  unfold compileName
  split
  · split
    · exact once_compileZero rfl (.identifier t)
    · exact fun _ => .nil
  · split
    · exact once_compileZero rfl (.identifier t)
    · exact fun _ => .nil

/-- A question to the linker reports only at the first argument. -/
theorem once_compileQuery (f : Function) {args : List Expr} (h : AllClear sc.state args) :
    (sc.compileQuery f args).Once (allPlaces args) := by
  have hfirst : ∀ (e : Expr) (es : List Expr), ∀ c o, e.places c o → allPlaces (e :: es) c o :=
    fun e es c o hp => ⟨List.mem_append_left _ hp.1, hp.2⟩
  have hsection : ∀ (e : Expr) (es : List Expr), e.Clear sc.state → (do
      let name ← Act.evaluating (sc.text e)
      return [ofSection f name] : Act Linkage Link.Program).Once (allPlaces (e :: es)) :=
    fun e es he => ((sc.once_text he).evaluating.bind_pure _).mono (hfirst e es)
  unfold compileQuery
  split
  · exact Act.once_pure _
  · rename_i t es
    split
    · exact hsection _ _ h.head
    · split
      · exact Act.once_pure _
      · split
        · exact (once_compileZero rfl (.identifier t)).mono (hfirst _ es)
        · exact fun _ => .nil
  · exact hsection _ _ h.head

/-- Compiling an expression reports nothing twice. -/
theorem once_compile (location : Nat) {e : Expr} (h : e.Clear sc.state) :
    (sc.compile location e).Once e.places := by
  induction e using compile_induction sc with
  | constant e hc =>
    rw [compile_of_isConstant hc]
    exact (sc.once_number h).evaluating.bind_pure _
  | name t hc =>
    rw [compile, if_neg hc]
    exact sc.once_compileName location t
  | unary op t e hc ih =>
    rw [compile, if_neg hc]
    exact ((ih h.unary).bind_pure _).mono fun c o hp => ⟨List.mem_cons_of_mem _ hp.1, hp.2⟩
  | binary op t l r hc ihl ihr =>
    rw [compile, if_neg hc]
    refine Act.Once.mono (P := .computed (l.columns ++ r.columns)) ?_
      fun c o hp => ⟨List.mem_cons_of_mem _ hp.1, hp.2⟩
    exact (ihl h.left).bind (fun left => (ihr h.right).bind_pure _)
      (Places.splits_computed h.operands)
  | unknown t args cause hc hf =>
    rw [compile, if_neg hc, hf]
    exact once_compileZero (occasions_of_callee hf) (.call t args)
  | high t e hc hf ih | low t e hc hf ih =>
    rw [compile, if_neg hc]
    simp only [hf]
    refine ((ih h.args.head).bind_pure _).mono fun c o hp => ⟨?_, hp.2⟩
    exact List.mem_cons_of_mem _ (List.mem_append_left _ hp.1)
  | query t args f hc hf hl =>
    rw [compile_of_isLinkTime hc hf hl]
    exact (sc.once_compileQuery f h.args).mono fun c o hp => ⟨List.mem_cons_of_mem _ hp.1, hp.2⟩
  | ordinary t args f hc hf hl hhigh hlow =>
    rw [compile_of_ordinary hc hf hl hhigh hlow]
    exact once_compileZero rfl (.call t args)
  | bracket t e hc ih =>
    rw [compile, if_neg hc]
    exact (ih h.bracket).mono fun c o hp => ⟨List.mem_cons_of_mem _ hp.1, hp.2⟩
  | index t b e hc ih =>
    rw [compile, if_neg hc]
    refine (ih h.index).mono fun c o hp => ⟨?_, hp.2⟩
    exact List.mem_cons_of_mem _ (List.mem_append_right _ hp.1)

/-! ## Patches -/

theorem once_deferWith (check : Link.Program) (kind : PatchKind) (offset : Nat) {e : Expr}
    (h : e.Clear sc.state) : (sc.deferWith check kind offset e).Once e.places := by
  unfold deferWith
  split
  · exact Act.once_fault (places_of_occasions rfl e)
  · intro s
    show Once _ (_ ++ [])
    rw [List.append_nil]
    exact (sc.once_compile _ h).linking s

theorem once_valueOrPatch (check : Link.Program) (kind : PatchKind) (offset : Nat)
    (expected : Expected) {e : Expr} (h : e.Clear sc.state) :
    (sc.valueOrPatch check kind offset expected e).Once e.places := by
  unfold valueOrPatch
  split
  · exact (sc.once_evaluate expected h).drawing
  · split
    · exact Act.once_reported (places_of_occasions rfl e) _
    · exact (sc.once_deferWith check kind offset h).bind_pure _

theorem once_numberOrPatch (kind : PatchKind) (offset : Nat) {e : Expr} (h : e.Clear sc.state) :
    (sc.numberOrPatch kind offset e).Once e.places :=
  (sc.once_valueOrPatch [] kind offset .number h).map _

theorem once_topPageOrPatch (offset : Nat) {e : Expr} (h : e.Clear sc.state) :
    (sc.topPageOrPatch offset e).Once e.places :=
  (sc.once_valueOrPatch [.hramCheck] .byte offset .number h).map _

/-! ## Jump targets -/

/-- Looking for the place of a jump target reports nothing twice. -/
theorem once_target? : ∀ e : Expr, e.Clear sc.state → (sc.target? e).Once e.places
  | .identifier t, _ => fun _ => .nil
  | .binary op t l r, h => by
    rw [target?]
    split
    · refine Act.Once.mono (P := .computed (l.columns ++ r.columns)) ?_
        fun c o hp => ⟨List.mem_cons_of_mem _ hp.1, hp.2⟩
      refine (once_target? l h.left).bind (fun start => ?_) (Places.splits_computed h.operands)
      split
      · exact Act.once_pure _
      · split
        · exact (sc.once_number h.right).bind_pure _
        · exact Act.once_pure _
    · exact Act.once_pure _
  | .number _, _ | .string _, _ | .unary _ _ _, _ | .call _ _, _ | .bracket _ _, _
  | .index _ _ _, _ => fun _ => .nil

variable {sc} in
/-- A difference of places is one of two names, the second of which is not constant. -/
theorem not_isConstant_of_difference? {op : BinaryOp} {t : Token} {l r : Expr}
    (h : (sc.difference? (.binary op t l r)).isSome = true) :
    (∃ name, l = .identifier name) ∧ sc.isConstant r = false := by
  unfold difference? at h
  split at h
  · rename_i heq
    cases heq
    unfold distance? at h
    split at h
    · rename_i hl hr
      obtain ⟨name, rfl, -⟩ := exists_identifier_of_location? hl
      obtain ⟨name', rfl, hplace⟩ := exists_identifier_of_location? hr
      exact ⟨⟨name, rfl⟩, isConstant_of_placeOf? hplace⟩
    · exact absurd h (by simp)
  · exact absurd h (by simp)

variable {sc} in
/-- A constant is not a place of the open section, and nothing is said in finding that out. -/
theorem target?_of_isConstant : ∀ e : Expr, sc.isConstant e = true → ∀ s,
    sc.target? e s = ⟨none, s, []⟩
  | .identifier t, h => by
    intro s
    cases hp : sc.placeOf? t.text with
    | none => simp [target?, hp]
    | some p =>
      rw [isConstant_of_placeOf? hp] at h
      exact absurd h (by simp)
  | .binary op t l r, h => by
    intro s
    rw [target?]
    split
    · rcases Bool.or_eq_true .. ▸ h with hdiff | hboth
      · obtain ⟨⟨name, rfl⟩, hr⟩ := not_isConstant_of_difference? hdiff
        obtain ⟨start, hstart⟩ : ∃ start, sc.target? (.identifier name) s = ⟨start, s, []⟩ :=
          ⟨_, rfl⟩
        rw [Act.bind_apply, hstart]
        cases start with
        | none => rfl
        | some start => simp [hr]
      · rw [Act.bind_apply, target?_of_isConstant l (Bool.and_eq_true .. ▸ hboth).1 s]
        rfl
    · rfl
  | .number _, _ | .string _, _ | .unary _ _ _, _ | .call _ _, _ | .bracket _ _, _
  | .index _ _ _, _ => fun _ => rfl

/-- Looking for a jump target reports nothing twice. -/
theorem once_jumpTarget? {e : Expr} (h : e.Clear sc.state) :
    (sc.jumpTarget? e).Once e.places := by
  intro s
  by_cases hc : sc.isConstant e = true
  · unfold jumpTarget?
    rw [Act.bind_apply, target?_of_isConstant e hc s]
    show Once _ ([] ++ (_ ++ []))
    rw [List.nil_append, List.append_nil]
    exact sc.once_constant? h s
  · unfold jumpTarget?
    rw [Act.bind_apply, constant?, if_neg hc]
    cases ht : (sc.target? e s).value with
    | none =>
      show Once _ ((sc.target? e s).reports ++ ([] ++ []))
      rw [List.append_nil, List.append_nil]
      exact sc.once_target? e h s
    | some target =>
      show Once _ ((sc.target? e s).reports ++ [])
      rw [List.append_nil]
      exact sc.once_target? e h s

end Sm83Asm.Scope
