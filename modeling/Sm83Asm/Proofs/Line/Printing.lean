import Sm83Asm.Proofs.Line.Grammar

set_option autoImplicit false

/-!
# Printing expressions

An expression is printed with parentheses only around an operand that holds together less tightly
than its place asks for. Reading what was printed gives the expression back and stops right behind
it, and no shorter text is read as that expression (`expression_print`).

What carries the first half is where the reader stops: in front of a token that binds no tighter
than the operator that is printed last. What carries the second is that such a token is met unless
two tokens were read that are not in the tree.
-/

namespace Sm83Asm

namespace Expr

/-- How tightly an expression holds together. -/
def precedence : Expr → Nat
  | .binary op _ _ _ => op.precedence
  | .unary _ _ _ => unaryPrecedence
  | _ => postfixPrecedence

mutual

/-- Every token of an expression is one that it can be read from. -/
def Spelled : Expr → Prop
  | .number t => t.kind = .number
  | .string t => t.kind = .string
  | .identifier t => t.kind = .identifier
  | .unary op t e => (t.kind = .operator ∧ t.text = op.symbol) ∧ e.Spelled
  | .binary op t l r => (t.kind = .operator ∧ t.text = op.symbol) ∧ l.Spelled ∧ r.Spelled
  | .call t args => t.kind = .identifier ∧ AllSpelled args
  | .bracket t e => t.kind = .openBracket ∧ e.Spelled
  | .index t b e => t.kind = .openBracket ∧ b.Spelled ∧ e.Spelled

@[inherit_doc Spelled]
def AllSpelled : List Expr → Prop
  | [] => True
  | e :: es => e.Spelled ∧ AllSpelled es

end

end Expr

/-- The tokens of a printed expression that are none of its own. -/
structure Punctuation where
  openParen : Token
  closeParen : Token
  closeBracket : Token
  comma : Token
  openParen_kind : openParen.kind = .openParen
  closeParen_kind : closeParen.kind = .closeParen
  closeBracket_kind : closeBracket.kind = .closeBracket
  comma_kind : comma.kind = .comma

namespace Punctuation

/-- Puts parentheses around the tokens of an expression that holds together less tightly than
`needed`. -/
def enclose (p : Punctuation) (needed : Nat) (e : Expr) (tokens : List Token) : List Token :=
  if e.precedence < needed then p.openParen :: tokens ++ [p.closeParen] else tokens

mutual

/-- Prints an expression. Operators of one precedence group to the left, so a left operand has to
hold together as tightly as its operator binds, and a right one more tightly. -/
def print (p : Punctuation) : Expr → List Token
  | .number t | .string t | .identifier t => [t]
  | .unary _ t e => t :: p.enclose unaryPrecedence e (p.print e)
  | .binary op t l r =>
    p.enclose op.precedence l (p.print l) ++ t :: p.enclose (op.precedence + 1) r (p.print r)
  | .call t args => t :: p.openParen :: p.printAll args ++ [p.closeParen]
  | .bracket t e => t :: p.print e ++ [p.closeBracket]
  | .index t b e => p.enclose postfixPrecedence b (p.print b) ++ t :: p.print e ++ [p.closeBracket]

/-- Prints expressions with commas between them. -/
def printAll (p : Punctuation) : List Expr → List Token
  | [] => []
  | [e] => p.print e
  | e :: e' :: es => p.print e ++ p.comma :: p.printAll (e' :: es)

end

end Punctuation

namespace Token

/-- Tokens that go on with the expression in front of them: the operators between two operands, and
the openings of a call and of an index. -/
def Continues (t : Token) : Prop :=
  t.kind = .openParen ∨ t.kind = .openBracket ∨
    t.kind = .operator ∧ ∃ op : BinaryOp, t.text = op.symbol

end Token

/-! ## Operators and precedences -/

/-- Every prefix operator is found by its symbol. -/
@[simp] theorem UnaryOp.ofSymbol?_symbol (op : UnaryOp) : ofSymbol? op.symbol = some op := by
  cases op <;> rfl

/-- Every infix operator is found by its symbol. -/
@[simp] theorem BinaryOp.ofSymbol?_symbol (op : BinaryOp) : ofSymbol? op.symbol = some op := by
  cases op <;> rfl

/-- An infix operator is found by its own symbol only. -/
theorem BinaryOp.eq_symbol_of_ofSymbol? {s : String} {op : BinaryOp} (h : ofSymbol? s = some op) :
    s = op.symbol := by
  unfold ofSymbol? at h
  split at h <;> cases h <;> rfl

theorem BinaryOp.precedence_pos (op : BinaryOp) : 0 < op.precedence := by
  cases op <;> decide

/-- Prefix operators bind more tightly than infix operators. -/
theorem BinaryOp.precedence_lt_unary (op : BinaryOp) : op.precedence < unaryPrecedence := by
  cases op <;> decide

theorem Expr.precedence_pos (e : Expr) : 0 < e.precedence := by
  cases e with
  | binary op t l r => exact op.precedence_pos
  | unary op t e => exact Nat.succ_pos _
  | _ => exact Nat.succ_pos _

namespace Parser

variable {eol : Token}

/-- The token of an infix operator binds like the operator. -/
theorem infixPrecedence_operator {t : Token} {op : BinaryOp} (hk : t.kind = .operator)
    (ht : t.text = op.symbol) : infixPrecedence t = op.precedence := by
  simp [infixPrecedence, hk, ht]

/-- A token that cannot continue an expression does not bind. -/
theorem infixPrecedence_eq_zero {t : Token} (h : ¬ t.Continues) : infixPrecedence t = 0 := by
  unfold infixPrecedence
  split
  · rename_i hk
    cases ho : BinaryOp.ofSymbol? t.text with
    | none => rfl
    | some op => exact absurd (Or.inr (Or.inr ⟨hk, op, BinaryOp.eq_symbol_of_ofSymbol? ho⟩)) h
  · rename_i hk
    exact absurd (Or.inl hk) h
  · rename_i hk
    exact absurd (Or.inr (Or.inl hk)) h
  · rfl

/-- The tokens in front of which an expression ends whose operators bind tighter than `floor`. -/
def Ends (floor : Nat) (rest : List Token) : Prop :=
  ∀ t ∈ rest.head?, infixPrecedence t ≤ floor

/-- Nothing is attached where the expression ends. -/
theorem readAttached_of_ends {floor : Nat} {rest : List Token} (h : Ends floor rest) (e : Expr) :
    readAttached eol floor e rest = .ok (e, rest) := by
  cases rest with
  | nil => exact readAttached_nil floor e
  | cons t ts => rw [readAttached_cons, if_pos (h t rfl)]

/-- What ends an expression ends one that binds more tightly. -/
theorem Ends.mono {m n : Nat} {rest : List Token} (h : Ends m rest) (hmn : m ≤ n) : Ends n rest :=
  fun t ht => Nat.le_trans (h t ht) hmn

/-- A token that binds too loosely ends an expression. -/
theorem ends_cons {n : Nat} {t : Token} (h : infixPrecedence t ≤ n) (ts : List Token) :
    Ends n (t :: ts) := by
  rintro u ⟨⟩
  exact h

/-! ## Reading what was printed -/

section Reads

variable (eol : Token) (p : Punctuation)

/-- An expression can be read whole as an operand above `floor`: its own operator binds tighter, or
stands in front. -/
def Fits (floor : Nat) (e : Expr) : Prop :=
  floor < e.precedence ∨ unaryPrecedence ≤ e.precedence

/-- The reader takes what is printed for an expression and goes on behind it, in front of tokens that
the expression does not draw in. -/
def Reads (e : Expr) : Prop :=
  ∀ floor rest, floor ≤ unaryPrecedence → Fits floor e → Ends e.precedence rest →
    readExpression eol floor (p.print e ++ rest) = readAttached eol floor e rest

variable {eol p}

/-- In front of a token that does not go on with it, a printed expression is read as it is. -/
theorem Reads.before {e : Expr} (h : Reads eol p e) {t : Token} (ht : infixPrecedence t = 0)
    (rest : List Token) : readExpression eol 0 (p.print e ++ t :: rest) = .ok (e, t :: rest) := by
  have hends : Ends 0 (t :: rest) := ends_cons (Nat.le_of_eq ht) rest
  rw [h 0 _ (Nat.zero_le _) (Or.inl e.precedence_pos) (hends.mono (Nat.zero_le _))]
  exact readAttached_of_ends hends e

theorem infixPrecedence_closeParen : infixPrecedence p.closeParen = 0 := by
  simp [infixPrecedence, p.closeParen_kind]

theorem infixPrecedence_closeBracket : infixPrecedence p.closeBracket = 0 := by
  simp [infixPrecedence, p.closeBracket_kind]

theorem infixPrecedence_comma : infixPrecedence p.comma = 0 := by
  simp [infixPrecedence, p.comma_kind]

theorem Reads.in_parens {e : Expr} (h : Reads eol p e) (floor : Nat) (rest : List Token) :
    readExpression eol floor (p.openParen :: (p.print e ++ p.closeParen :: rest)) =
      readAttached eol floor e rest := by
  rw [readExpression_eq, readOperand_cons, p.openParen_kind]
  simp only [h.before infixPrecedence_closeParen, skip_cons p.closeParen_kind, Except.bind,
    Except.map]

/-- With parentheses where they are needed, an expression is read wherever it stands. -/
theorem Reads.enclosed {e : Expr} (h : Reads eol p e) {needed floor : Nat} {rest : List Token}
    (hfloor : floor ≤ unaryPrecedence)
    (hfits : ¬ e.precedence < needed → Fits floor e ∧ Ends e.precedence rest) :
    readExpression eol floor (p.enclose needed e (p.print e) ++ rest) =
      readAttached eol floor e rest := by
  unfold Punctuation.enclose
  split
  · simp only [List.cons_append, List.append_assoc, List.nil_append]
    exact h.in_parens floor rest
  · rename_i hneeded
    obtain ⟨hfit, hends⟩ := hfits hneeded
    exact h floor rest hfloor hfit hends

/-- An expression of one token. -/
theorem reads_leaf {e : Expr} {t : Token} (hprint : p.print e = [t])
    (hoperand : ∀ rest, readOperand eol (t :: rest) = .ok (e, rest)) : Reads eol p e := by
  intro floor rest _ _ _
  rw [hprint, readExpression_eq, List.singleton_append, hoperand]
  rfl

/-- A prefix operator in front of an expression that reads back, in parentheses if need be. -/
theorem reads_unary {op : UnaryOp} {t : Token} {e : Expr} (hk : t.kind = .operator)
    (ht : t.text = op.symbol) (he : Reads eol p e) : Reads eol p (.unary op t e) := by
  intro floor rest _ _ hends
  have hinner : readExpression eol unaryPrecedence
      (p.enclose unaryPrecedence e (p.print e) ++ rest) = .ok (e, rest) := by
    rw [he.enclosed (Nat.le_refl _) fun hn => ⟨Or.inr (by omega), hends.mono (by
      show unaryPrecedence ≤ e.precedence
      omega)⟩]
    exact readAttached_of_ends hends e
  rw [Punctuation.print, readExpression_eq, List.cons_append, readOperand_cons, hk]
  simp only [ht, UnaryOp.ofSymbol?_symbol, hinner, Except.map, Except.bind]

/-- An infix operator between expressions that read back; the right one must bind more tightly. -/
theorem reads_binary {op : BinaryOp} {t : Token} {l r : Expr} (hk : t.kind = .operator)
    (ht : t.text = op.symbol) (hl : Reads eol p l) (hr : Reads eol p r) :
    Reads eol p (.binary op t l r) := by
  intro floor rest hfloor hfits hends
  have hop := infixPrecedence_operator hk ht
  have hbelow := op.precedence_lt_unary
  change Ends op.precedence rest at hends
  have habove : floor < op.precedence := by
    rcases hfits with h | h
    · exact h
    · exact absurd h (Nat.not_le_of_lt hbelow)
  have hright : readExpression eol op.precedence
      (p.enclose (op.precedence + 1) r (p.print r) ++ rest) = .ok (r, rest) := by
    rw [hr.enclosed (by omega) fun hn => ⟨Or.inl (by omega), hends.mono (by omega)⟩]
    exact readAttached_of_ends hends r
  rw [Punctuation.print, List.append_assoc, List.cons_append,
    hl.enclosed hfloor fun hn => ⟨Or.inl (by omega), ends_cons (by omega) _⟩,
    readAttached_cons, if_neg (by omega), hk]
  simp only [ht, BinaryOp.ofSymbol?_symbol, hright, Except.bind]

/-- An expression that reads back, in brackets. -/
theorem reads_bracket {t : Token} {e : Expr} (hk : t.kind = .openBracket) (he : Reads eol p e) :
    Reads eol p (.bracket t e) := by
  intro floor rest _ _ _
  simp only [Punctuation.print, List.cons_append, List.append_assoc, List.nil_append]
  rw [readExpression_eq, readOperand_cons, hk]
  simp only [he.before infixPrecedence_closeBracket, skip_cons p.closeBracket_kind, Except.bind,
    Except.map]

/-- An index behind an expression that reads back. -/
theorem reads_index {t : Token} {b e : Expr} (hk : t.kind = .openBracket) (hb : Reads eol p b)
    (he : Reads eol p e) : Reads eol p (.index t b e) := by
  intro floor rest hfloor _ _
  have ht : infixPrecedence t = postfixPrecedence := by simp [infixPrecedence, hk]
  have hlt : unaryPrecedence < postfixPrecedence := by decide
  simp only [Punctuation.print, List.cons_append, List.append_assoc, List.nil_append]
  rw [hb.enclosed hfloor fun hn => ⟨Or.inl (by omega), ends_cons (by omega) _⟩,
    readAttached_cons, if_neg (by omega), hk]
  simp only [he.before infixPrecedence_closeBracket, skip_cons p.closeBracket_kind, Except.bind]

/-- The reader takes printed expressions up to a closing parenthesis. -/
theorem readSequence_printAll {args : List Expr} (hne : args ≠ [])
    (h : ∀ e ∈ args, Reads eol p e) (rest : List Token) :
    readSequence eol (p.printAll args ++ p.closeParen :: rest) =
      .ok (args, p.closeParen :: rest) := by
  induction args with
  | nil => exact absurd rfl hne
  | cons e es ih =>
    have he := h e List.mem_cons_self
    rw [readSequence_eq]
    cases es with
    | nil =>
      rw [Punctuation.printAll, he.before infixPrecedence_closeParen]
      simp [Except.bind, p.closeParen_kind]
    | cons e' es =>
      have hothers := ih (by simp) fun e he => h e (List.mem_cons_of_mem _ he)
      rw [Punctuation.printAll, List.append_assoc, List.cons_append,
        he.before infixPrecedence_comma]
      simp [Except.bind, Except.map, p.comma_kind, hothers]

/-- Arguments that read back, up to the parenthesis that closes the call. -/
theorem readArguments_printAll {args : List Expr} (h : ∀ e ∈ args, Reads eol p e)
    (rest : List Token) :
    readArguments eol (p.printAll args ++ p.closeParen :: rest) = .ok (args, rest) := by
  rw [readArguments_eq]
  cases args with
  | nil => simp [Punctuation.printAll, peek, p.closeParen_kind, skip_cons, Except.map]
  | cons e es =>
    have hseq := readSequence_printAll (by simp) h rest
    obtain ⟨t, ts, htokens⟩ : ∃ t ts, p.printAll (e :: es) ++ p.closeParen :: rest = t :: ts :=
      List.exists_cons_of_ne_nil (by simp)
    rw [htokens] at hseq ⊢
    have hk : t.kind ≠ .closeParen := by
      intro hk
      rw [readSequence_eq, readExpression_eq, readOperand_cons, hk] at hseq
      simp [fail, Except.bind] at hseq
    simp [peek, hk, hseq, Except.bind, skip_cons p.closeParen_kind, Except.map]

/-- A call with arguments that read back. -/
theorem reads_call {t : Token} {args : List Expr} (hk : t.kind = .identifier)
    (h : ∀ e ∈ args, Reads eol p e) : Reads eol p (.call t args) := by
  intro floor rest hfloor _ _
  have ht : infixPrecedence p.openParen = postfixPrecedence := by
    simp [infixPrecedence, p.openParen_kind]
  have hlt : unaryPrecedence < postfixPrecedence := by decide
  simp only [Punctuation.print, List.cons_append, List.append_assoc, List.nil_append]
  rw [readExpression_eq, readOperand_cons, hk]
  simp only [Except.bind]
  rw [readAttached_cons, if_neg (by omega), p.openParen_kind]
  simp only [readArguments_printAll h, Except.bind]

mutual

/-- Every expression that is spelled out reads back, by induction over the expression. -/
theorem reads_of_spelled : ∀ e : Expr, e.Spelled → Reads eol p e
  | .number t, h => reads_leaf rfl fun rest => by rw [readOperand_cons, h]
  | .string t, h => reads_leaf rfl fun rest => by rw [readOperand_cons, h]
  | .identifier t, h => reads_leaf rfl fun rest => by rw [readOperand_cons, h]
  | .unary op t e, ⟨⟨hk, ht⟩, he⟩ => reads_unary hk ht (reads_of_spelled e he)
  | .binary op t l r, ⟨⟨hk, ht⟩, hl, hr⟩ =>
    reads_binary hk ht (reads_of_spelled l hl) (reads_of_spelled r hr)
  | .call t args, ⟨hk, hargs⟩ => reads_call hk (reads_of_allSpelled args hargs)
  | .bracket t e, ⟨hk, he⟩ => reads_bracket hk (reads_of_spelled e he)
  | .index t b e, ⟨hk, hb, he⟩ => reads_index hk (reads_of_spelled b hb) (reads_of_spelled e he)

/-- Each of several expressions that are spelled out reads back. -/
theorem reads_of_allSpelled : ∀ es : List Expr, Expr.AllSpelled es → ∀ e ∈ es, Reads eol p e
  | [], _ => List.forall_mem_nil _
  | e :: es, ⟨he, hes⟩ =>
    List.forall_mem_cons.2 ⟨reads_of_spelled e he, reads_of_allSpelled es hes⟩

end

end Reads

/-! ## Nothing shorter is read

Reading pays for printing: every parenthesis that is printed around an operand answers to two tokens
that were read for it, because without them the operand would have been taken apart. -/

section Covers

variable (eol : Token) (p : Punctuation)

/-- Some tokens, `n` in number and in front of `rest`, are enough to print an expression, and even
enough to put it into parentheses if the next token could take it apart. -/
def Covers (n : Nat) (e : Expr) (rest : List Token) : Prop :=
  (p.print e).length + 2 ≤ n ∨ (p.print e).length ≤ n ∧ Ends e.precedence rest

/-- What is known of an expression that was read from `n` tokens above `floor`. -/
structure ReadAbove (floor n : Nat) (e : Expr) (rest : List Token) : Prop where
  covers : Covers p n e rest
  fits : (p.print e).length + 2 ≤ n ∨ Fits floor e

variable {p}

/-- Nothing binds more tightly than what stands behind an operand. -/
theorem infixPrecedence_le (t : Token) : infixPrecedence t ≤ postfixPrecedence := by
  unfold infixPrecedence
  split
  · cases ho : BinaryOp.ofSymbol? t.text with
    | none => exact Nat.zero_le _
    | some op => exact Nat.le_of_lt (Nat.lt_trans op.precedence_lt_unary (by decide))
  · exact Nat.le_refl _
  · exact Nat.le_refl _
  · exact Nat.zero_le _

theorem Covers.length_le {n : Nat} {e : Expr} {rest : List Token} (h : Covers p n e rest) :
    (p.print e).length ≤ n := by
  rcases h with h | ⟨h, -⟩
  · omega
  · exact h

/-- Parentheses are paid for, or not needed. -/
theorem length_enclose_le {needed n : Nat} {e : Expr}
    (h : (p.print e).length + 2 ≤ n ∨ (p.print e).length ≤ n ∧ needed ≤ e.precedence) :
    (p.enclose needed e (p.print e)).length ≤ n := by
  unfold Punctuation.enclose
  split
  · simp only [List.length_append, List.length_cons, List.length_nil]
    omega
  · omega

/-- A left operand is printed with the tokens that were read for it. -/
theorem Covers.left {n : Nat} {e : Expr} {t : Token} {ts : List Token}
    (h : Covers p n e (t :: ts)) :
    (p.enclose (infixPrecedence t) e (p.print e)).length ≤ n :=
  length_enclose_le (h.imp_right fun ⟨hn, hends⟩ => ⟨hn, hends t rfl⟩)

/-- An operand on the right of an operator is printed with the tokens that were read for it. -/
theorem ReadAbove.right {op : BinaryOp} {n : Nat} {e : Expr} {rest : List Token}
    (h : ReadAbove p op.precedence n e rest) :
    (p.enclose (op.precedence + 1) e (p.print e)).length ≤ n := by
  have hn := h.covers.length_le
  have hop := op.precedence_lt_unary
  refine length_enclose_le (h.fits.imp_right fun hfits => ⟨hn, ?_⟩)
  rcases hfits with hfits | hfits
  · exact hfits
  · omega

/-- The operand of an operator in front is printed with the tokens that were read for it. -/
theorem ReadAbove.operand {n : Nat} {e : Expr} {rest : List Token}
    (h : ReadAbove p unaryPrecedence n e rest) :
    (p.enclose unaryPrecedence e (p.print e)).length ≤ n := by
  refine length_enclose_le (h.fits.imp_right fun hfits => ⟨h.covers.length_le, ?_⟩)
  rcases hfits with hfits | hfits
  · exact Nat.le_of_lt hfits
  · exact hfits

/-- An expression that binds most tightly needs no parentheses anywhere. -/
theorem ReadAbove.of_tightest {floor n : Nat} {e : Expr} (he : e.precedence = postfixPrecedence)
    (hn : (p.print e).length ≤ n) (rest : List Token) : ReadAbove p floor n e rest where
  covers := Or.inr ⟨hn, fun t _ => he ▸ infixPrecedence_le t⟩
  fits := Or.inr (Or.inr (by rw [he]; decide))

/-- One more argument costs its own tokens and a comma. -/
theorem length_printAll_cons_le (e : Expr) (es : List Expr) :
    (p.printAll (e :: es)).length ≤ (p.print e).length + 1 + (p.printAll es).length := by
  cases es with
  | nil => simp [Punctuation.printAll]
  | cons e' es =>
    rw [Punctuation.printAll]
    simp only [List.length_append, List.length_cons]
    omega

variable {eol} (eol p)

/-- Every expression that is read from some tokens is paid for. -/
def ExpressionPaid (tokens : List Token) : Prop :=
  ∀ floor e rest, readExpression eol floor tokens = .ok (e, rest) →
    Ends floor rest ∧ ∃ n, n + rest.length = tokens.length ∧ ReadAbove p floor n e rest

/-- Whatever some tokens attach to an operand is paid for. -/
def AttachedPaid (tokens : List Token) : Prop :=
  ∀ floor left m e rest, ReadAbove p floor m left tokens →
    readAttached eol floor left tokens = .ok (e, rest) →
      Ends floor rest ∧ ∃ n, n + rest.length = m + tokens.length ∧ ReadAbove p floor n e rest

/-- All expressions between commas that are read from some tokens are paid for. -/
def SequencePaid (tokens : List Token) : Prop :=
  ∀ args rest, readSequence eol tokens = .ok (args, rest) →
    (p.printAll args).length + rest.length ≤ tokens.length

variable {eol p}

/-- An operand pays for itself at every place. -/
theorem readAbove_operand {t : Token} {ts : List Token} (hts : ExpressionPaid eol p ts) {e : Expr}
    {rest : List Token} (h : readOperand eol (t :: ts) = .ok (e, rest)) :
    ∃ n, n + rest.length = ts.length + 1 ∧ ∀ floor, ReadAbove p floor n e rest := by
  have leaf : ∀ {e}, p.print e = [t] → e.precedence = postfixPrecedence →
      ∃ n, n + ts.length = ts.length + 1 ∧ ∀ floor, ReadAbove p floor n e ts := fun hprint he =>
    ⟨1, by omega, fun floor => .of_tightest he (by simp [hprint]) ts⟩
  rw [readOperand_cons] at h
  split at h
  · cases h
    exact leaf rfl rfl
  · cases h
    exact leaf rfl rfl
  · cases h
    exact leaf rfl rfl
  · split at h
    · simp [fail] at h
    · obtain ⟨⟨inner, rest'⟩, hinner, hres⟩ := map_eq_ok.1 h
      cases hres
      obtain ⟨hends, n, hn, habove⟩ := hts _ _ _ hinner
      have hlen := habove.operand
      refine ⟨n + 1, by omega, fun floor => ⟨Or.inr ⟨?_, hends⟩, Or.inr (Or.inr (Nat.le_refl _))⟩⟩
      simp only [Punctuation.print, List.length_cons]
      omega
  · -- Parentheses are gone from the tree, so their tokens are there to spare.
    obtain ⟨⟨inner, rest'⟩, hinner, hres⟩ := bind_eq_ok.1 h
    obtain ⟨rest'', hskip, hres⟩ := map_eq_ok.1 hres
    cases hres
    obtain ⟨t', -, rfl⟩ := of_skip hskip
    obtain ⟨-, n, hn, habove⟩ := hts _ _ _ hinner
    have hlen := habove.covers.length_le
    rw [List.length_cons] at hn
    exact ⟨n + 2, by omega, fun floor => ⟨Or.inl (by omega), Or.inl (by omega)⟩⟩
  · obtain ⟨⟨inner, rest'⟩, hinner, hres⟩ := bind_eq_ok.1 h
    obtain ⟨rest'', hskip, hres⟩ := map_eq_ok.1 hres
    cases hres
    obtain ⟨t', -, rfl⟩ := of_skip hskip
    obtain ⟨-, n, hn, habove⟩ := hts _ _ _ hinner
    have hlen := habove.covers.length_le
    rw [List.length_cons] at hn
    refine ⟨n + 2, by omega, fun floor => .of_tightest rfl ?_ _⟩
    simp only [Punctuation.print, List.length_append, List.length_cons, List.length_nil]
    omega
  · simp [fail] at h
  · simp [fail] at h

/-- A sequence is paid for by its first expression and the sequence behind it. -/
theorem sequencePaid_of {tokens : List Token} (hexpr : ExpressionPaid eol p tokens)
    (hseq : ∀ ts, ts.length < tokens.length → SequencePaid eol p ts) :
    SequencePaid eol p tokens := by
  intro args rest h
  rw [readSequence_eq] at h
  obtain ⟨⟨first, rest'⟩, hfirst, h⟩ := bind_eq_ok.1 h
  obtain ⟨-, n, hn, habove⟩ := hexpr _ _ _ hfirst
  have hlen := habove.covers.length_le
  cases rest' with
  | nil =>
    cases h
    simp only [Punctuation.printAll, List.length_nil] at hn ⊢
    omega
  | cons t ts =>
    dsimp only at h
    split at h
    · obtain ⟨⟨others, rest''⟩, hothers, hres⟩ := map_eq_ok.1 h
      cases hres
      rw [List.length_cons] at hn
      have hmore := hseq ts (by omega) _ _ hothers
      have hcons := length_printAll_cons_le (p := p) first others
      dsimp only
      omega
    · cases h
      simp only [Punctuation.printAll]
      omega

/-- The arguments of a call are paid for, with the parenthesis that closes it. -/
theorem length_arguments_le {tokens : List Token} (hseq : SequencePaid eol p tokens)
    {args : List Expr} {rest : List Token} (h : readArguments eol tokens = .ok (args, rest)) :
    (p.printAll args).length + 1 + rest.length ≤ tokens.length := by
  rw [readArguments_eq] at h
  split at h
  · obtain ⟨rest', hskip, hres⟩ := map_eq_ok.1 h
    cases hres
    obtain ⟨t, -, rfl⟩ := of_skip hskip
    simp [Punctuation.printAll]
    omega
  · obtain ⟨⟨args', rest'⟩, hargs, hres⟩ := bind_eq_ok.1 h
    obtain ⟨rest'', hskip, hres⟩ := map_eq_ok.1 hres
    cases hres
    obtain ⟨t, -, rfl⟩ := of_skip hskip
    have hlen := hseq _ _ hargs
    rw [List.length_cons] at hlen
    omega

/-- What is attached to an operand is paid for by its first token and the rest. -/
theorem attachedPaid_cons {t : Token} {ts : List Token} (hexpr : ExpressionPaid eol p ts)
    (hseq : SequencePaid eol p ts)
    (hattached : ∀ rest, rest.length ≤ ts.length → AttachedPaid eol p rest) :
    AttachedPaid eol p (t :: ts) := by
  intro floor left m e rest hleft h
  have hprint := hleft.covers.left
  rw [readAttached_cons] at h
  split at h
  · rename_i hle
    cases h
    exact ⟨ends_cons hle ts, m, rfl, hleft⟩
  · rename_i hlt
    split at h
    · rename_i hk
      split at h
      · simp [fail] at h
      · rename_i op hop
        have ht : t.text = op.symbol := BinaryOp.eq_symbol_of_ofSymbol? hop
        rw [infixPrecedence_operator hk ht] at hprint hlt
        obtain ⟨⟨right, rest'⟩, hright, hwhole⟩ := bind_eq_ok.1 h
        obtain ⟨hends, n, hn, habove⟩ := hexpr _ _ _ hright
        have hlen := habove.right
        -- The operator pays for its own token. The whole binds as tight as the operator, and
        -- goes on from there with fewer tokens.
        have hnext : ReadAbove p floor (m + 1 + n) (.binary op t left right) rest' := by
          refine ⟨Or.inr ⟨?_, hends⟩, Or.inr (Or.inl (by show floor < op.precedence; omega))⟩
          simp only [Punctuation.print, List.length_append, List.length_cons]
          omega
        obtain ⟨hends', n', hn', habove'⟩ := hattached rest' (by omega) _ _ _ _ _ hnext hwhole
        exact ⟨hends', n', by rw [List.length_cons]; omega, habove'⟩
    · split at h
      · rename_i name
        obtain ⟨⟨args, rest'⟩, hargs, hwhole⟩ := bind_eq_ok.1 h
        have hlen := length_arguments_le hseq hargs
        have hname : 1 ≤ m := hleft.covers.length_le
        -- A call ends at its parenthesis, which no operator around it can reach into.
        have hnext : ReadAbove p floor (m + 1 + (ts.length - rest'.length)) (.call name args)
            rest' := by
          refine .of_tightest rfl ?_ _
          simp only [Punctuation.print, List.length_append, List.length_cons, List.length_nil]
          omega
        obtain ⟨hends', n', hn', habove'⟩ := hattached rest' (by omega) _ _ _ _ _ hnext hwhole
        exact ⟨hends', n', by rw [List.length_cons]; omega, habove'⟩
      · simp [fail] at h
    · rename_i hk
      have ht : infixPrecedence t = postfixPrecedence := by simp [infixPrecedence, hk]
      rw [ht] at hprint
      obtain ⟨⟨inner, rest'⟩, hinner, hindex⟩ := bind_eq_ok.1 h
      obtain ⟨rest'', hskip, hwhole⟩ := bind_eq_ok.1 hindex
      obtain ⟨t', -, rfl⟩ := of_skip hskip
      obtain ⟨-, n, hn, habove⟩ := hexpr _ _ _ hinner
      have hlen := habove.covers.length_le
      rw [List.length_cons] at hn
      have hnext : ReadAbove p floor (m + n + 2) (.index t left inner) rest'' := by
        refine .of_tightest rfl ?_ _
        simp only [Punctuation.print, List.length_append, List.length_cons, List.length_nil]
        omega
      obtain ⟨hends', n', hn', habove'⟩ := hattached rest'' (by omega) _ _ _ _ _ hnext hwhole
      exact ⟨hends', n', by rw [List.length_cons]; omega, habove'⟩
    · simp [fail] at h

/-- Every token list pays for what is read from it. -/
theorem paid (tokens : List Token) :
    ExpressionPaid eol p tokens ∧ AttachedPaid eol p tokens ∧ SequencePaid eol p tokens := by
  -- By the number of tokens: behind each token, all three are asked of fewer of them.
  induction hlength : tokens.length using Nat.strongRecOn generalizing tokens with
  | ind length ih =>
    have shorter : ∀ ts, ts.length < tokens.length →
        ExpressionPaid eol p ts ∧ AttachedPaid eol p ts ∧ SequencePaid eol p ts := fun ts hts =>
      ih ts.length (hlength ▸ hts) ts rfl
    have hexpr : ExpressionPaid eol p tokens := by
      intro floor e rest h
      rw [readExpression_eq] at h
      obtain ⟨⟨left, rest'⟩, hleft, hwhole⟩ := bind_eq_ok.1 h
      have hattached := (shorter rest' (length_readOperand_lt hleft)).2.1
      cases tokens with
      | nil => simp [readOperand, operand, fail, Except.map] at hleft
      | cons t ts =>
        obtain ⟨m, hm, habove⟩ := readAbove_operand (shorter ts (by simp)).1 hleft
        obtain ⟨hends, n, hn, habove'⟩ := hattached _ _ _ _ _ (habove floor) hwhole
        exact ⟨hends, n, by rw [List.length_cons]; omega, habove'⟩
    refine ⟨hexpr, ?_, sequencePaid_of hexpr fun ts hts => (shorter ts hts).2.2⟩
    cases tokens with
    | nil =>
      intro floor left m e rest hleft h
      rw [readAttached_nil] at h
      cases h
      exact ⟨fun t ht => absurd ht (by simp), m, rfl, hleft⟩
    | cons t ts =>
      have hts := shorter ts (by simp)
      exact attachedPaid_cons hts.1 hts.2.2 fun rest hrest =>
        (shorter rest (by rw [List.length_cons]; omega)).2.1

end Covers

/-! ## Main statement -/

/-- Reading undoes printing. What is printed for an expression, in front of anything that does not
go on with it, is read as that expression and no further; and no fewer tokens are ever read as that
expression, so that each printed parenthesis is needed. -/
theorem expression_print (eol : Token) (p : Punctuation) (e : Expr) (he : e.Spelled) :
    (∀ rest : List Token, (∀ t ∈ rest.head?, ¬ t.Continues) →
      ∃ h, expression eol 0 (p.print e ++ rest) = .ok ⟨e, rest, h⟩) ∧
    ∀ (tokens : List Token) (parsed : Parsed tokens Expr),
      expression eol 0 tokens = .ok parsed → parsed.value = e →
        (p.print e).length + parsed.rest.length ≤ tokens.length := by
  refine ⟨fun rest hrest => ?_, fun tokens parsed hparsed hvalue => ?_⟩
  · have hends : Ends 0 rest := fun t ht => Nat.le_of_eq (infixPrecedence_eq_zero (hrest t ht))
    have hread : readExpression eol 0 (p.print e ++ rest) = .ok (e, rest) := by
      rw [reads_of_spelled e he 0 rest (Nat.zero_le _) (Or.inl e.precedence_pos)
        (hends.mono (Nat.zero_le _))]
      exact readAttached_of_ends hends e
    obtain ⟨⟨value, rest', shorter⟩, hexpr, heq⟩ := map_eq_ok.1 hread
    have hvalue : value = e := congrArg Prod.fst heq
    have hleft : rest' = rest := congrArg Prod.snd heq
    subst hvalue hleft
    exact ⟨shorter, hexpr⟩
  · have hread : readExpression eol 0 tokens = .ok (e, parsed.rest) := by
      rw [readExpression, hparsed, ← hvalue]
      rfl
    obtain ⟨-, n, hn, habove⟩ := (paid (p := p) tokens).1 0 e parsed.rest hread
    have hlength := habove.covers.length_le
    omega

/-- The usual signs. -/
def signs : Punctuation where
  openParen := ⟨.openParen, "(", 1, 0⟩
  closeParen := ⟨.closeParen, ")", 1, 0⟩
  closeBracket := ⟨.closeBracket, "]", 1, 0⟩
  comma := ⟨.comma, ",", 1, 0⟩
  openParen_kind := rfl
  closeParen_kind := rfl
  closeBracket_kind := rfl
  comma_kind := rfl

/-- The expression `a - (-(b * c) - f(2, [d])[3])`. -/
def sampleExpr : Expr :=
  let name (s : String) : Expr := .identifier ⟨.identifier, s, 1, 0⟩
  let bracket : Token := ⟨.openBracket, "[", 1, 0⟩
  let minus : Token := ⟨.operator, "-", 1, 0⟩
  .binary .sub minus (name "a")
    (.binary .sub minus
      (.unary .neg minus (.binary .mul ⟨.operator, "*", 1, 0⟩ (name "b") (name "c")))
      (.index bracket
        (.call ⟨.identifier, "f", 1, 0⟩ [.number ⟨.number, "2", 1, 0⟩, .bracket bracket (name "d")])
        (.number ⟨.number, "3", 1, 0⟩)))

example : (signs.print sampleExpr).map Token.text =
    ["a", "-", "(", "-", "(", "b", "*", "c", ")", "-", "f", "(", "2", ",", "[", "d", "]", ")", "[",
      "3", "]", ")"] := by
  decide

theorem expression_print_sampleExpr :
    sampleExpr.Spelled ∧ (∀ t ∈ [signs.comma].head?, ¬ t.Continues) ∧
      ∃ h, expression signs.comma 0 (signs.print sampleExpr ++ [signs.comma]) =
        .ok ⟨sampleExpr, [signs.comma], h⟩ := by
  have hspelled : sampleExpr.Spelled := by
    simp [sampleExpr, Expr.Spelled, Expr.AllSpelled, UnaryOp.symbol, BinaryOp.symbol]
  have hcomma : ∀ t ∈ [signs.comma].head?, ¬ t.Continues := by
    rintro t ⟨⟩
    simp [Token.Continues, signs.comma_kind]
  exact ⟨hspelled, hcomma, (expression_print signs.comma signs sampleExpr hspelled).1 _ hcomma⟩

end Parser

end Sm83Asm
