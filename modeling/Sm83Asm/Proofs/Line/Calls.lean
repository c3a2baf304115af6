import Sm83Asm.Proofs.Eval.Gate
import Sm83Asm.Proofs.Line.Grammar

set_option autoImplicit false

/-!
# Functions that a line calls

Every function that is called in a parsed line is named by one of its tokens. So what can be said of
all tokens of a line can be said of all functions that it calls.

Main statement: `calls_parseLine`.
-/

namespace Sm83Asm

/-- The token of an expression, and those that name the functions it calls, pass a test. -/
def Expr.Named (S : Token → Prop) (e : Expr) : Prop := S e.token ∧ ∀ t ∈ e.calls, S t

theorem Expr.forall_mem_allCalls {S : Token → Prop} {es : List Expr} (h : ∀ e ∈ es, e.Named S) :
    ∀ t ∈ allCalls es, S t := by
  induction es with
  | nil => simp [allCalls]
  | cons e es ih =>
    obtain ⟨he, hes⟩ := List.forall_mem_cons.1 h
    exact List.forall_mem_append.2 ⟨he.2, ih hes⟩

namespace Parser

variable {eol : Token} {S : Token → Prop}

theorem length_readExpression_lt {floor : Nat} {tokens rest : List Token} {e : Expr}
    (h : readExpression eol floor tokens = .ok (e, rest)) : rest.length < tokens.length := by
  obtain ⟨parsed, -, heq⟩ := map_eq_ok.1 h
  cases heq
  exact parsed.shorter

theorem readExpression_of_expression {floor : Nat} {tokens : List Token} {p : Parsed tokens Expr}
    (h : expression eol floor tokens = .ok p) :
    readExpression eol floor tokens = .ok (p.value, p.rest) := by
  rw [readExpression, h]
  rfl

theorem length_readArguments_le {tokens rest : List Token} {es : List Expr}
    (h : readArguments eol tokens = .ok (es, rest)) : rest.length ≤ tokens.length := by
  obtain ⟨parsed, -, heq⟩ := map_eq_ok.1 h
  cases heq
  exact parsed.within

theorem forall_mem_of_skip {kind : TokenKind} {tokens rest : List Token}
    (h : skip eol kind tokens = .ok rest) (hS : ∀ t ∈ tokens, S t) : ∀ t ∈ rest, S t := by
  obtain ⟨t, -, rfl⟩ := of_skip h
  exact (List.forall_mem_cons.1 hS).2

theorem length_skip {kind : TokenKind} {tokens rest : List Token}
    (h : skip eol kind tokens = .ok rest) : rest.length < tokens.length := by
  obtain ⟨t, -, rfl⟩ := of_skip h
  exact Nat.lt_succ_self _

/-- What is read from some tokens, and what is left of them, consists of tokens that pass a test. -/
structure ReadsNamed (eol : Token) (S : Token → Prop) (tokens : List Token) : Prop where
  operand : ∀ {e rest}, readOperand eol tokens = .ok (e, rest) → e.Named S ∧ ∀ t ∈ rest, S t
  attached : ∀ {floor left e rest}, left.Named S →
    readAttached eol floor left tokens = .ok (e, rest) → e.Named S ∧ ∀ t ∈ rest, S t
  expression : ∀ {floor e rest}, readExpression eol floor tokens = .ok (e, rest) →
    e.Named S ∧ ∀ t ∈ rest, S t
  sequence : ∀ {es rest}, readSequence eol tokens = .ok (es, rest) →
    (∀ e ∈ es, e.Named S) ∧ ∀ t ∈ rest, S t
  arguments : ∀ {es rest}, readArguments eol tokens = .ok (es, rest) →
    (∀ e ∈ es, e.Named S) ∧ ∀ t ∈ rest, S t

section Step

variable {tokens : List Token} (hS : ∀ t ∈ tokens, S t)
  (ih : ∀ ts : List Token, ts.length < tokens.length → (∀ t ∈ ts, S t) → ReadsNamed eol S ts)

include hS ih

theorem named_operand {e : Expr} {rest : List Token}
    (h : readOperand eol tokens = .ok (e, rest)) : e.Named S ∧ ∀ t ∈ rest, S t := by
  cases tokens with
  | nil => simp [readOperand, operand, fail, Except.map] at h
  | cons t ts =>
    obtain ⟨ht, hts⟩ := List.forall_mem_cons.1 hS
    have hinner := ih ts (Nat.lt_succ_self _) hts
    rw [readOperand_cons] at h
    split at h
    · cases h
      exact ⟨⟨ht, by simp [Expr.calls]⟩, hts⟩
    · cases h
      exact ⟨⟨ht, by simp [Expr.calls]⟩, hts⟩
    · cases h
      exact ⟨⟨ht, by simp [Expr.calls]⟩, hts⟩
    · split at h
      · simp [fail] at h
      · obtain ⟨⟨inner, rest'⟩, hread, heq⟩ := map_eq_ok.1 h
        cases heq
        obtain ⟨he, hrest⟩ := hinner.expression hread
        exact ⟨⟨ht, he.2⟩, hrest⟩
    · obtain ⟨⟨inner, rest'⟩, hread, hskip⟩ := bind_eq_ok.1 h
      obtain ⟨rest'', hskip, heq⟩ := map_eq_ok.1 hskip
      cases heq
      obtain ⟨he, hrest⟩ := hinner.expression hread
      exact ⟨he, forall_mem_of_skip hskip hrest⟩
    · obtain ⟨⟨inner, rest'⟩, hread, hskip⟩ := bind_eq_ok.1 h
      obtain ⟨rest'', hskip, heq⟩ := map_eq_ok.1 hskip
      cases heq
      obtain ⟨he, hrest⟩ := hinner.expression hread
      exact ⟨⟨ht, he.2⟩, forall_mem_of_skip hskip hrest⟩
    · simp [fail] at h
    · simp [fail] at h

theorem named_attached {floor : Nat} {left e : Expr} {rest : List Token} (hleft : left.Named S)
    (h : readAttached eol floor left tokens = .ok (e, rest)) :
    e.Named S ∧ ∀ t ∈ rest, S t := by
  cases tokens with
  | nil =>
    rw [readAttached_nil] at h
    cases h
    exact ⟨hleft, by simp⟩
  | cons t ts =>
    obtain ⟨ht, hts⟩ := List.forall_mem_cons.1 hS
    have hinner := ih ts (Nat.lt_succ_self _) hts
    rw [readAttached_cons] at h
    split at h
    · cases h
      exact ⟨hleft, hS⟩
    split at h
    · split at h
      · simp [fail] at h
      · rename_i op hop
        obtain ⟨⟨right, rest'⟩, hread, hmore⟩ := bind_eq_ok.1 h
        obtain ⟨hright, hrest⟩ := hinner.expression hread
        have hlt := length_readExpression_lt hread
        have hbinary : (Expr.binary op t left right).Named S :=
          ⟨ht, List.forall_mem_append.2 ⟨hleft.2, hright.2⟩⟩
        exact (ih rest' (Nat.lt_succ_of_lt hlt) hrest).attached hbinary hmore
    · split at h
      · rename_i name
        obtain ⟨⟨args, rest'⟩, hread, hmore⟩ := bind_eq_ok.1 h
        obtain ⟨hargs, hrest⟩ := hinner.arguments hread
        have hle := length_readArguments_le hread
        have hcall : (Expr.call name args).Named S :=
          ⟨hleft.1, List.forall_mem_cons.2 ⟨hleft.1, Expr.forall_mem_allCalls hargs⟩⟩
        exact (ih rest' (Nat.lt_succ_of_le hle) hrest).attached hcall hmore
      · simp [fail] at h
    · obtain ⟨⟨inner, rest'⟩, hread, hmore⟩ := bind_eq_ok.1 h
      obtain ⟨rest'', hskip, hmore⟩ := bind_eq_ok.1 hmore
      obtain ⟨he, hrest⟩ := hinner.expression hread
      have hlt := length_readExpression_lt hread
      have hlt' := length_skip hskip
      have hindex : (Expr.index t left inner).Named S :=
        ⟨ht, List.forall_mem_append.2 ⟨hleft.2, he.2⟩⟩
      exact (ih rest'' (Nat.lt_succ_of_lt (Nat.lt_trans hlt' hlt))
        (forall_mem_of_skip hskip hrest)).attached hindex hmore
    · simp [fail] at h

theorem named_expression {floor : Nat} {e : Expr} {rest : List Token}
    (h : readExpression eol floor tokens = .ok (e, rest)) : e.Named S ∧ ∀ t ∈ rest, S t := by
  rw [readExpression_eq] at h
  obtain ⟨⟨left, rest'⟩, hread, hmore⟩ := bind_eq_ok.1 h
  obtain ⟨hleft, hrest⟩ := named_operand hS ih hread
  exact (ih rest' (length_readOperand_lt hread) hrest).attached hleft hmore

theorem named_sequence {es : List Expr} {rest : List Token}
    (h : readSequence eol tokens = .ok (es, rest)) :
    (∀ e ∈ es, e.Named S) ∧ ∀ t ∈ rest, S t := by
  rw [readSequence_eq] at h
  obtain ⟨⟨first, rest'⟩, hread, hmore⟩ := bind_eq_ok.1 h
  obtain ⟨hfirst, hrest⟩ := named_expression hS ih hread
  have hlt := length_readExpression_lt hread
  cases rest' with
  | nil =>
    cases hmore
    exact ⟨by simpa using hfirst, by simp⟩
  | cons t ts =>
    dsimp only at hmore
    split at hmore
    · obtain ⟨⟨others, rest''⟩, hothers, heq⟩ := map_eq_ok.1 hmore
      cases heq
      obtain ⟨hes, hlast⟩ := (ih ts (Nat.lt_of_succ_lt hlt)
        (List.forall_mem_cons.1 hrest).2).sequence hothers
      exact ⟨List.forall_mem_cons.2 ⟨hfirst, hes⟩, hlast⟩
    · cases hmore
      exact ⟨by simpa using hfirst, hrest⟩

theorem named_arguments {es : List Expr} {rest : List Token}
    (h : readArguments eol tokens = .ok (es, rest)) :
    (∀ e ∈ es, e.Named S) ∧ ∀ t ∈ rest, S t := by
  rw [readArguments_eq] at h
  split at h
  · obtain ⟨rest', hskip, heq⟩ := map_eq_ok.1 h
    cases heq
    exact ⟨by simp, forall_mem_of_skip hskip hS⟩
  · obtain ⟨⟨args, rest'⟩, hread, hmore⟩ := bind_eq_ok.1 h
    obtain ⟨rest'', hskip, heq⟩ := map_eq_ok.1 hmore
    cases heq
    obtain ⟨hargs, hrest⟩ := named_sequence hS ih hread
    exact ⟨hargs, forall_mem_of_skip hskip hrest⟩

end Step

/-- Whatever is read from tokens that pass a test consists of such tokens. -/
theorem readsNamed (tokens : List Token) (hS : ∀ t ∈ tokens, S t) : ReadsNamed eol S tokens := by
  -- Each function reads fewer tokens, or hands the same ones to the one above.
  induction hn : tokens.length using Nat.strongRecOn generalizing tokens with
  | ind n ih =>
    have ih' : ∀ ts : List Token, ts.length < tokens.length → (∀ t ∈ ts, S t) →
        ReadsNamed eol S ts := fun ts hlt hts => ih ts.length (hn ▸ hlt) ts hts rfl
    exact
      { operand := named_operand hS ih'
        attached := named_attached hS ih'
        expression := named_expression hS ih'
        sequence := named_sequence hS ih'
        arguments := named_arguments hS ih' }

/-! ## Lines -/

theorem forall_mem_expect {kind : TokenKind} {tokens : List Token} {p : Parsed tokens Token}
    (h : expect eol kind tokens = .ok p) (hS : ∀ t ∈ tokens, S t) : ∀ t ∈ p.rest, S t := by
  have hskip : skip eol kind tokens = .ok p.rest := by
    rw [skip, h]
    rfl
  exact forall_mem_of_skip hskip hS

theorem forall_mem_labelPart {tokens : List Token} (hS : ∀ t ∈ tokens, S t) :
    ∀ t ∈ (labelPart tokens).2, S t := by
  unfold labelPart
  split
  · simp
  · obtain ⟨-, hts⟩ := List.forall_mem_cons.1 hS
    split
    · split
      · obtain ⟨-, hrest⟩ := List.forall_mem_cons.1 hts
        split
        · exact hrest
        · exact hts
      · simp
    · exact hS

theorem named_expressionList {tokens rest : List Token} {es : List Expr}
    (hS : ∀ t ∈ tokens, S t) (h : expressionList eol tokens = .ok (es, rest)) :
    ∀ e ∈ es, e.Named S := by
  unfold expressionList at h
  split at h
  · cases h
    simp
  · exact ((readsNamed tokens hS).sequence h).1

/-- An operation that is made of an expression list has operands that pass the test. -/
theorem named_listedOperation {tokens rest : List Token} {op? : Option Operation}
    {make : List Expr → Operation} (hS : ∀ t ∈ tokens, S t)
    (hmake : ∀ es, (make es).operands = es)
    (h : ((expressionList eol tokens).map fun (args, rest) => (some (make args), rest)) =
      .ok (op?, rest)) : ∀ op ∈ op?, ∀ e ∈ op.operands, e.Named S := by
  obtain ⟨⟨es, rest'⟩, hread, heq⟩ := map_eq_ok.1 h
  cases heq
  simpa [hmake] using named_expressionList hS hread

theorem named_operationPart {label : Option LabelDef} {tokens rest : List Token}
    {op? : Option Operation} (hS : ∀ t ∈ tokens, S t)
    (h : operationPart eol label tokens = .ok (op?, rest)) :
    ∀ op ∈ op?, ∀ e ∈ op.operands, e.Named S := by
  unfold operationPart at h
  split at h
  · cases h
    simp
  · obtain ⟨-, hts⟩ := List.forall_mem_cons.1 hS
    split at h
    · exact named_listedOperation hts (fun _ => rfl) h
    · exact named_listedOperation hts (fun _ => rfl) h
    · split at h
      · exact named_listedOperation hts (fun _ => rfl) h
      · split at h
        · cases h
          simp [Operation.operands]
        · exact named_listedOperation hts (fun _ => rfl) h
    · cases h
      simp [Operation.operands]
    · split at h
      · obtain ⟨p, hread, heq⟩ := map_eq_ok.1 h
        cases heq
        simpa [Operation.operands] using
          ((readsNamed _ hts).expression (readExpression_of_expression hread)).1
      · cases h
        simp
    · cases h
      simp

theorem named_line {tokens : List Token} {parsed : Line} (hS : ∀ t ∈ tokens, S t)
    (h : line eol tokens = .ok parsed) :
    ∀ op ∈ parsed.operation, ∀ e ∈ op.operands, e.Named S := by
  unfold line at h
  obtain ⟨start, hstart, h⟩ := bind_eq_ok.1 h
  obtain ⟨⟨op?, rest⟩, hop, h⟩ := bind_eq_ok.1 h
  have hoperation := named_operationPart (forall_mem_labelPart (forall_mem_expect hstart hS)) hop
  dsimp only at h
  split at h
  · cases h
    exact hoperation
  · split at h
    · cases h
      exact hoperation
    · simp [fail] at h

end Parser

/-- Every function that is called in the operands of a parsed line is named by one of its tokens. -/
theorem calls_parseLine {tokens : List Token} {parsed : Line}
    (h : (parseLine tokens).1 = .line parsed) :
    ∀ op ∈ parsed.operation, ∀ t ∈ Expr.allCalls op.operands, t ∈ tokens := by
  intro op hop
  apply Expr.forall_mem_allCalls
  refine Parser.named_line ?_ (of_parseLine h) op hop
  intro t ht
  exact (List.mem_filter.1 ht).1

end Sm83Asm
