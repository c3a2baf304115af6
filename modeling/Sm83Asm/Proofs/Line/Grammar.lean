import Sm83Asm.Line.Parser

set_option autoImplicit false

/-!
# The grammar of expressions

The functions that parse expressions return the rest of the tokens together with a bound on their
number. Here they are seen without the bound, as functions to a tree and the tokens that are left,
and each of them gets the equation by which it proceeds from token to token. Proofs about parsing
use these equations and never open the parser itself.
-/

namespace Sm83Asm

/-- What a parsed thing is and which tokens are left. -/
def Parsed.both {α : Type} {tokens : List Token} (p : Parsed tokens α) : α × List Token :=
  (p.value, p.rest)

@[inherit_doc Parsed.both]
def ParsedWithin.both {α : Type} {tokens : List Token} (p : ParsedWithin tokens α) :
    α × List Token :=
  (p.value, p.rest)

namespace Parser

variable (eol : Token)

/-- An expression whose operators bind tighter than `floor`, and the tokens behind it. -/
def readExpression (floor : Nat) (tokens : List Token) :
    Except ParseFailure (Expr × List Token) :=
  (expression eol floor tokens).map Parsed.both

/-- An operand and the tokens behind it. -/
def readOperand (tokens : List Token) : Except ParseFailure (Expr × List Token) :=
  (operand eol tokens).map Parsed.both

/-- An operand with what follows it and binds tighter than `floor`, and the tokens behind that. -/
def readAttached (floor : Nat) (left : Expr) (tokens : List Token) :
    Except ParseFailure (Expr × List Token) :=
  (attach eol floor left tokens).map ParsedWithin.both

/-- The arguments of a call up to the closing parenthesis, and the tokens behind it. -/
def readArguments (tokens : List Token) : Except ParseFailure (List Expr × List Token) :=
  (arguments eol tokens).map ParsedWithin.both

/-- One or more expressions between commas, and the tokens behind them. -/
def readSequence (tokens : List Token) : Except ParseFailure (List Expr × List Token) :=
  (sequence eol tokens).map Parsed.both

/-- The tokens behind one of a class. -/
def skip (kind : TokenKind) (tokens : List Token) : Except ParseFailure (List Token) :=
  (expect eol kind tokens).map Parsed.rest

variable {eol}

theorem bind_eq_ok {ε α β : Type} {x : Except ε α} {f : α → Except ε β} {b : β} :
    x.bind f = .ok b ↔ ∃ a, x = .ok a ∧ f a = .ok b := by
  cases x with
  | error e => simp [Except.bind]
  | ok a => simp [Except.bind]

theorem map_eq_ok {ε α β : Type} {x : Except ε α} {f : α → β} {b : β} :
    x.map f = .ok b ↔ ∃ a, x = .ok a ∧ f a = b := by
  cases x with
  | error e => simp [Except.map]
  | ok a => simp [Except.map]

theorem length_readOperand_lt {tokens rest : List Token} {e : Expr}
    (h : readOperand eol tokens = .ok (e, rest)) : rest.length < tokens.length := by
  obtain ⟨parsed, -, heq⟩ := map_eq_ok.1 h
  cases heq
  exact parsed.shorter

theorem skip_cons {kind : TokenKind} {t : Token} (h : t.kind = kind) (ts : List Token) :
    skip eol kind (t :: ts) = .ok ts := by
  simp [skip, expect, h, Except.map]

theorem of_skip {kind : TokenKind} {tokens rest : List Token}
    (h : skip eol kind tokens = .ok rest) : ∃ t, t.kind = kind ∧ tokens = t :: rest := by
  unfold skip expect at h
  split at h
  · simp [fail, Except.map] at h
  · rename_i t ts
    split at h
    · rename_i hk
      simp only [Except.map, Except.ok.injEq] at h
      exact ⟨t, eq_of_beq hk, by rw [h]⟩
    · simp [fail, Except.map] at h

/-! ## Expressions and operands -/

theorem readExpression_eq (floor : Nat) (tokens : List Token) :
    readExpression eol floor tokens =
      (readOperand eol tokens).bind fun (left, rest) => readAttached eol floor left rest := by
  unfold readExpression readOperand readAttached
  rw [expression]
  cases operand eol tokens with
  | error failure => rfl
  | ok left =>
    simp only [Except.map, Except.bind, Parsed.both]
    cases attach eol floor left.value left.rest with
    | error failure => rfl
    | ok whole => rfl

theorem readOperand_cons (t : Token) (ts : List Token) :
    readOperand eol (t :: ts) =
      match t.kind with
      | .number => .ok (.number t, ts)
      | .string => .ok (.string t, ts)
      | .identifier => .ok (.identifier t, ts)
      | .operator =>
        match UnaryOp.ofSymbol? t.text with
        | none => fail (.unexpected t) t ts
        | some op =>
          (readExpression eol unaryPrecedence ts).map fun (inner, rest) => (.unary op t inner, rest)
      | .openParen =>
        (readExpression eol 0 ts).bind fun (inner, rest) =>
          (skip eol .closeParen rest).map fun rest => (inner, rest)
      | .openBracket =>
        (readExpression eol 0 ts).bind fun (inner, rest) =>
          (skip eol .closeBracket rest).map fun rest => (.bracket t inner, rest)
      | .endOfLine => fail .unexpectedEnd t ts
      | _ => fail (.unexpected t) t ts := by
  unfold readOperand
  rw [operand]
  -- A part that cannot be read fails both ways alike; one that can is read with its bound
  -- erased.
  cases t.kind with
  | operator =>
    dsimp only
    cases UnaryOp.ofSymbol? t.text with
    | none => rfl
    | some op =>
      unfold readExpression
      cases expression eol unaryPrecedence ts with
      | error failure => rfl
      | ok inner => rfl
  | openParen =>
    unfold readExpression skip
    dsimp only
    cases expression eol 0 ts with
    | error failure => rfl
    | ok inner =>
      simp only [Except.map, Except.bind, Parsed.both]
      cases expect eol .closeParen inner.rest with
      | error failure => rfl
      | ok close => rfl
  | openBracket =>
    unfold readExpression skip
    dsimp only
    cases expression eol 0 ts with
    | error failure => rfl
    | ok inner =>
      simp only [Except.map, Except.bind, Parsed.both]
      cases expect eol .closeBracket inner.rest with
      | error failure => rfl
      | ok close => rfl
  | _ => rfl

/-! ## What follows an operand -/

theorem readAttached_nil (floor : Nat) (left : Expr) :
    readAttached eol floor left [] = .ok (left, []) := by
  unfold readAttached
  rw [attach]
  rfl

theorem readAttached_cons (floor : Nat) (left : Expr) (t : Token) (ts : List Token) :
    readAttached eol floor left (t :: ts) =
      if infixPrecedence t ≤ floor then .ok (left, t :: ts)
      else
        match t.kind with
        | .operator =>
          match BinaryOp.ofSymbol? t.text with
          | none => fail (.unexpected t) t ts
          | some op =>
            (readExpression eol op.precedence ts).bind fun (right, rest) =>
              readAttached eol floor (.binary op t left right) rest
        | .openParen =>
          match left with
          | .identifier name =>
            (readArguments eol ts).bind fun (args, rest) =>
              readAttached eol floor (.call name args) rest
          | _ => fail .notCallable t ts
        | .openBracket =>
          (readExpression eol 0 ts).bind fun (inner, rest) =>
            (skip eol .closeBracket rest).bind fun rest =>
              readAttached eol floor (.index t left inner) rest
        | _ => fail (.unexpected t) t ts := by
  rw [readAttached, attach.eq_def]
  unfold readAttached
  dsimp only
  split
  · rfl
  -- As for operands, by what fails first: the part behind the token or what is attached to it.
  cases t.kind with
  | operator =>
    dsimp only
    cases BinaryOp.ofSymbol? t.text with
    | none => rfl
    | some op =>
      unfold readExpression
      dsimp only
      cases expression eol op.precedence ts with
      | error failure => rfl
      | ok right =>
        simp only [Except.map, Except.bind, Parsed.both]
        cases attach eol floor (.binary op t left right.value) right.rest with
        | error failure => rfl
        | ok whole => rfl
  | openParen =>
    cases left with
    | identifier name =>
      unfold readArguments
      dsimp only
      cases arguments eol ts with
      | error failure => rfl
      | ok args =>
        simp only [Except.map, Except.bind, ParsedWithin.both]
        cases attach eol floor (.call name args.value) args.rest with
        | error failure => rfl
        | ok whole => rfl
    | _ => rfl
  | openBracket =>
    unfold readExpression skip
    dsimp only
    cases expression eol 0 ts with
    | error failure => rfl
    | ok inner =>
      simp only [Except.map, Except.bind, Parsed.both]
      cases expect eol .closeBracket inner.rest with
      | error failure => rfl
      | ok close =>
        dsimp only
        cases attach eol floor (.index t left inner.value) close.rest with
        | error failure => rfl
        | ok whole => rfl
  | _ => rfl

/-! ## Arguments -/

theorem readArguments_eq (tokens : List Token) :
    readArguments eol tokens =
      if (peek eol tokens).kind == .closeParen then
        (skip eol .closeParen tokens).map fun rest => ([], rest)
      else
        (readSequence eol tokens).bind fun (args, rest) =>
          (skip eol .closeParen rest).map fun rest => (args, rest) := by
  unfold readArguments
  rw [arguments]
  split
  · unfold skip
    cases expect eol .closeParen tokens with
    | error failure => rfl
    | ok close => rfl
  · unfold readSequence skip
    cases sequence eol tokens with
    | error failure => rfl
    | ok args =>
      simp only [Except.map, Except.bind, Parsed.both]
      cases expect eol .closeParen args.rest with
      | error failure => rfl
      | ok close => rfl

theorem readSequence_eq (tokens : List Token) :
    readSequence eol tokens =
      (readExpression eol 0 tokens).bind fun (first, rest) =>
        match rest with
        | [] => .ok ([first], [])
        | t :: ts =>
          if t.kind == .comma then
            (readSequence eol ts).map fun (others, rest) => (first :: others, rest)
          else .ok ([first], t :: ts) := by
  unfold readSequence
  rw [sequence]
  unfold readExpression
  cases expression eol 0 tokens with
  | error failure => rfl
  | ok first =>
    simp only [Except.map, Except.bind, Parsed.both]
    obtain ⟨first, rest, shorter⟩ := first
    cases rest with
    | nil => rfl
    | cons t ts =>
      dsimp only
      cases (t.kind == .comma) with
      | false => rfl
      | true =>
        cases sequence eol ts with
        | error failure => rfl
        | ok others => rfl

end Parser

/-- A line that is parsed is parsed without its blanks. -/
theorem of_parseLine {tokens : List Token} {parsed : Line}
    (h : (parseLine tokens).1 = .line parsed) :
    Parser.line (Parser.endToken tokens) (tokens.filter fun t => !t.kind.isTrivia) =
      .ok parsed := by
  unfold parseLine at h
  dsimp only at h
  split at h
  · rename_i found hline
    obtain rfl : found = parsed := Statement.line.inj h
    exact hline
  · exact absurd h (by simp)

end Sm83Asm
