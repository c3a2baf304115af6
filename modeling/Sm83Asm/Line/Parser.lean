import Sm83Asm.Line
import Sm83Asm.State
import Sm83Asm.Vocabulary

set_option autoImplicit false

/-!
# Parsing lines

Expressions are parsed by precedence climbing: an operand is read, and then operators, calls and
indices are attached to it as long as they bind tighter than what stands in front. The parser
stops at the first fault, so a line gives either a tree or one report.

The functions on tokens return the tokens that are left together with a bound on their number,
which is what makes the recursion end.
-/

namespace Sm83Asm

/-- Why and where parsing stopped. -/
structure ParseFailure where
  report : Report
  /-- The tokens that were not read. -/
  rest : List Token

/-- A parsed thing and the tokens behind it, fewer than those of `tokens`. -/
structure Parsed (tokens : List Token) (α : Type) where
  value : α
  rest : List Token
  shorter : rest.length < tokens.length

/-- A parsed thing and the tokens behind it, at most those of `tokens`. -/
structure ParsedWithin (tokens : List Token) (α : Type) where
  value : α
  rest : List Token
  within : rest.length ≤ tokens.length

namespace Parser

/-- Stops with a report at a token. -/
def fail {α : Type} (cause : GrammarCause) (token : Token) (rest : List Token) :
    Except ParseFailure α :=
  .error ⟨.grammar cause token, rest⟩

/-- Reads a token of a class. The end token `eol` is what is found behind the last token. -/
def expect (eol : Token) (kind : TokenKind) (tokens : List Token) :
    Except ParseFailure (Parsed tokens Token) :=
  match tokens with
  | [] => fail (.expected kind eol) eol []
  | t :: ts =>
    if t.kind == kind then .ok ⟨t, ts, by simp⟩ else fail (.expected kind t) t ts

/-- The next token. -/
def peek (eol : Token) (tokens : List Token) : Token := tokens.headD eol

/-- How tightly the next token binds the operand in front of it; zero when it does not. -/
def infixPrecedence (t : Token) : Nat :=
  match t.kind with
  | .operator => ((BinaryOp.ofSymbol? t.text).map BinaryOp.precedence).getD 0
  | .openParen | .openBracket => postfixPrecedence
  | _ => 0

mutual

/-- Parses an expression whose operators bind tighter than `floor`. -/
def expression (eol : Token) (floor : Nat) (tokens : List Token) :
    Except ParseFailure (Parsed tokens Expr) :=
  match operand eol tokens with
  | .error failure => .error failure
  | .ok left =>
    match attach eol floor left.value left.rest with
    | .error failure => .error failure
    | .ok whole => .ok ⟨whole.value, whole.rest, Nat.lt_of_le_of_lt whole.within left.shorter⟩
termination_by 5 * tokens.length + 2
decreasing_by
  · omega
  · have := left.shorter; omega

/-- Parses an operand: a literal, a name, an expression in parentheses or brackets, or one behind
an operator. -/
def operand (eol : Token) (tokens : List Token) : Except ParseFailure (Parsed tokens Expr) :=
  match tokens with
  | [] => fail .unexpectedEnd eol []
  | t :: ts =>
    match t.kind with
    | .number => .ok ⟨.number t, ts, by simp⟩
    | .string => .ok ⟨.string t, ts, by simp⟩
    | .identifier => .ok ⟨.identifier t, ts, by simp⟩
    | .operator =>
      match UnaryOp.ofSymbol? t.text with
      | none => fail (.unexpected t) t ts
      | some op =>
        match expression eol unaryPrecedence ts with
        | .error failure => .error failure
        | .ok inner => .ok ⟨.unary op t inner.value, inner.rest, by
            have := inner.shorter; simp only [List.length_cons]; omega⟩
    | .openParen =>
      match expression eol 0 ts with
      | .error failure => .error failure
      | .ok inner =>
        match expect eol .closeParen inner.rest with
        | .error failure => .error failure
        | .ok close => .ok ⟨inner.value, close.rest, by
            have := inner.shorter; have := close.shorter; simp only [List.length_cons]; omega⟩
    | .openBracket =>
      match expression eol 0 ts with
      | .error failure => .error failure
      | .ok inner =>
        match expect eol .closeBracket inner.rest with
        | .error failure => .error failure
        | .ok close => .ok ⟨.bracket t inner.value, close.rest, by
            have := inner.shorter; have := close.shorter; simp only [List.length_cons]; omega⟩
    | .endOfLine => fail .unexpectedEnd t ts
    | _ => fail (.unexpected t) t ts
termination_by 5 * tokens.length + 1

/-- Attaches to an operand what follows it and binds tighter than `floor`. -/
def attach (eol : Token) (floor : Nat) (left : Expr) (tokens : List Token) :
    Except ParseFailure (ParsedWithin tokens Expr) :=
  match tokens with
  | [] => .ok ⟨left, [], by simp⟩
  | t :: ts =>
    if infixPrecedence t ≤ floor then .ok ⟨left, t :: ts, by simp⟩
    else
      match t.kind with
      | .operator =>
        match BinaryOp.ofSymbol? t.text with
        | none => fail (.unexpected t) t ts
        | some op =>
          match expression eol op.precedence ts with
          | .error failure => .error failure
          | .ok right =>
            match attach eol floor (.binary op t left right.value) right.rest with
            | .error failure => .error failure
            | .ok whole => .ok ⟨whole.value, whole.rest, by
                have := right.shorter; have := whole.within; simp only [List.length_cons]; omega⟩
      | .openParen =>
        match left with
        | .identifier name =>
          match arguments eol ts with
          | .error failure => .error failure
          | .ok args =>
            match attach eol floor (.call name args.value) args.rest with
            | .error failure => .error failure
            | .ok whole => .ok ⟨whole.value, whole.rest, by
                have := args.within; have := whole.within; simp only [List.length_cons]; omega⟩
        | _ => fail .notCallable t ts
      | .openBracket =>
        match expression eol 0 ts with
        | .error failure => .error failure
        | .ok inner =>
          match expect eol .closeBracket inner.rest with
          | .error failure => .error failure
          | .ok close =>
            match attach eol floor (.index t left inner.value) close.rest with
            | .error failure => .error failure
            | .ok whole => .ok ⟨whole.value, whole.rest, by
                have := inner.shorter; have := close.shorter; have := whole.within
                simp only [List.length_cons]; omega⟩
      | _ => fail (.unexpected t) t ts
termination_by 5 * tokens.length
decreasing_by
  · simp only [List.length_cons]; omega
  · have := right.shorter; simp only [List.length_cons]; omega
  · simp only [List.length_cons]; omega
  · have := args.within; simp only [List.length_cons]; omega
  · simp only [List.length_cons]; omega
  · have := inner.shorter; have := close.shorter; simp only [List.length_cons]; omega

/-- Parses the arguments of a call up to the closing parenthesis. -/
def arguments (eol : Token) (tokens : List Token) :
    Except ParseFailure (ParsedWithin tokens (List Expr)) :=
  if (peek eol tokens).kind == .closeParen then
    match expect eol .closeParen tokens with
    | .error failure => .error failure
    | .ok close => .ok ⟨[], close.rest, Nat.le_of_lt close.shorter⟩
  else
    match sequence eol tokens with
    | .error failure => .error failure
    | .ok args =>
      match expect eol .closeParen args.rest with
      | .error failure => .error failure
      | .ok close => .ok ⟨args.value, close.rest, by
          have := args.shorter; have := close.shorter; omega⟩
termination_by 5 * tokens.length + 4

/-- Parses one or more expressions between commas. -/
def sequence (eol : Token) (tokens : List Token) :
    Except ParseFailure (Parsed tokens (List Expr)) :=
  match expression eol 0 tokens with
  | .error failure => .error failure
  | .ok first =>
    match h : first.rest with
    | [] => .ok ⟨[first.value], [], by have := first.shorter; simp only [h] at this; exact this⟩
    | t :: ts =>
      if t.kind == .comma then
        match sequence eol ts with
        | .error failure => .error failure
        | .ok others => .ok ⟨first.value :: others.value, others.rest, by
            have := others.shorter; have := first.shorter
            simp only [h, List.length_cons] at this; omega⟩
      else .ok ⟨[first.value], t :: ts, by have := first.shorter; rw [h] at this; exact this⟩
termination_by 5 * tokens.length + 3
decreasing_by
  · omega
  · have := first.shorter
    simp only [h, List.length_cons] at this
    omega

end

/-! ## Arguments kept as text -/

/-- Tokens behind which no argument follows. -/
def endsArguments (t : Token) : Bool := t.kind == .comment || t.kind == .endOfLine

/-- Bracket depth behind a token. -/
def depthAfter (depth : Nat) (t : Token) : Nat :=
  match t.kind with
  | .openParen | .openBracket => depth + 1
  | .closeParen | .closeBracket => depth - 1
  | _ => depth

/-- The text up to the next comma outside of brackets or the end of the arguments, and the tokens
behind it. A gap between two tokens becomes one blank; `last` is the column behind the token in
front. -/
def rawArgument (depth : Nat) (last : Option Nat) : List Token → String × List Token
  | [] => ("", [])
  | t :: ts =>
    if endsArguments t || (t.kind == .comma && depth == 0) then ("", t :: ts)
    else
      let gap := if last.any (· < t.column) then " " else ""
      let (text, rest) := rawArgument (depthAfter depth t) (some t.finish) ts
      (gap ++ t.text ++ text, rest)

theorem length_rawArgument_le (depth : Nat) (last : Option Nat) (tokens : List Token) :
    (rawArgument depth last tokens).2.length ≤ tokens.length := by
  induction tokens generalizing depth last with
  | nil => simp [rawArgument]
  | cons t ts ih =>
    unfold rawArgument
    split
    · exact Nat.le_refl _
    · exact Nat.le_succ_of_le (ih _ _)

/-- One or more arguments between commas, each as a token that holds its text, and the tokens
behind them. -/
def rawSequence (eol : Token) (tokens : List Token) : List Token × List Token :=
  let first := peek eol tokens
  match _h : rawArgument 0 none tokens with
  | (text, []) => ([{ first with text }], [])
  | (text, t :: ts) =>
    if t.kind == .comma then
      let (args, rest) := rawSequence eol ts
      ({ first with text } :: args, rest)
    else ([{ first with text }], t :: ts)
termination_by tokens.length
decreasing_by
  have := length_rawArgument_le 0 none tokens
  simp only [_h, List.length_cons] at this
  omega

/-- The arguments of a macro call or of an option keyword. -/
def rawList (eol : Token) (tokens : List Token) : List Token × List Token :=
  if endsArguments (peek eol tokens) then ([], tokens) else rawSequence eol tokens

/-! ## Lines -/

/-- The expressions up to the end of the arguments. -/
def expressionList (eol : Token) (tokens : List Token) :
    Except ParseFailure (List Expr × List Token) :=
  if endsArguments (peek eol tokens) then .ok ([], tokens)
  else (sequence eol tokens).map fun args => (args.value, args.rest)

/-- The label at the head of a line. -/
def labelPart : List Token → Option LabelDef × List Token
  | [] => (none, [])
  | t :: ts =>
    if t.kind == .label then
      match ts with
      | mark :: rest =>
        if mark.kind == .colon || mark.kind == .doubleColon then (some ⟨t, some mark⟩, rest)
        else (some ⟨t, none⟩, mark :: rest)
      | [] => (some ⟨t, none⟩, [])
    else (none, t :: ts)

/-- Whether a keyword is an instruction at this place: `SET` and `RL` are, unless they define the
label in front of them. -/
def isInstruction (label : Option LabelDef) (word : Token) : Bool :=
  (word.isWord "SET" || word.isWord "RL") && label.all fun l => l.terminator.isSome

/-- The operation of a line. -/
def operationPart (eol : Token) (label : Option LabelDef) (tokens : List Token) :
    Except ParseFailure (Option Operation × List Token) :=
  match tokens with
  | [] => .ok (none, [])
  | t :: ts =>
    match t.kind with
    | .directive => (expressionList eol ts).map fun (args, rest) => (some (.directive t args), rest)
    | .opcode => (expressionList eol ts).map fun (args, rest) => (some (.opcode t args), rest)
    | .keyword =>
      if isInstruction label t then
        (expressionList eol ts).map fun (args, rest) => (some (.opcode t args), rest)
      else if (Keyword.ofWord? t.text).any Keyword.takesRawText then
        let (args, rest) := rawList eol ts
        .ok (some (.options t args), rest)
      else (expressionList eol ts).map fun (args, rest) => (some (.keyword t args), rest)
    | .macroCall =>
      let (args, rest) := rawList eol ts
      .ok (some (.macroCall t args), rest)
    | .operator =>
      if t.text == "=" then
        (expression eol 0 ts).map fun value => (some (.assign t value.value), value.rest)
      else .ok (none, t :: ts)
    | _ => .ok (none, t :: ts)

/-- The comment of a line. -/
def commentPart : List Token → Option Token × List Token
  | t :: ts => if t.kind == .comment then (some t, ts) else (none, t :: ts)
  | [] => (none, [])

/-- Parses the tokens of a line. -/
def line (eol : Token) (tokens : List Token) : Except ParseFailure Line := do
  let start ← expect eol .startOfLine tokens
  let (label, rest) := labelPart start.rest
  let (operation, rest) ← operationPart eol label rest
  let (comment, rest) := commentPart rest
  match rest with
  | [] => .ok { start := start.value, label, operation, comment }
  | t :: ts =>
    if t.kind == .endOfLine then .ok { start := start.value, label, operation, comment }
    else fail (.unexpected t) t ts

/-- The end token of a line. -/
def endToken (tokens : List Token) : Token :=
  match tokens.getLast? with
  | some t => if t.kind == .endOfLine then t else ⟨.endOfLine, "", 0, 0⟩
  | none => ⟨.endOfLine, "", 0, 0⟩

end Parser

/-- Parses the tokens of a line, with a report when that fails. -/
def parseLine (tokens : List Token) : Statement × List Report :=
  let eol := Parser.endToken tokens
  match Parser.line eol (tokens.filter fun t => !t.kind.isTrivia) with
  | .ok line => (.line line, [])
  | .error failure => (.invalid (Parser.peek eol failure.rest), [failure.report])

/-! ## Lines that are passed over -/

/-- The first token that spells one of some keywords. -/
def findKeyword? (words : List Keyword) (tokens : List Token) : Option (Keyword × Token) :=
  tokens.findSome? fun t =>
    if t.kind == .keyword then
      (Keyword.ofWord? t.text).bind fun keyword =>
        if words.contains keyword then some (keyword, t) else none
    else none

/-- What becomes of a line that is not parsed in full, from its tokens as written. Inside a macro
definition only the words that open and close one are looked at; inside a repeat and in dead
branches a line is passed over unless a word opens or closes a block, and then only that word is
kept. -/
def State.passOver? (st : State) (tokens : List Token) : Option Statement :=
  match tokens.head? with
  | none => none
  | some start =>
    let bare (word : Token) : Statement := .line { start, operation := some (.keyword word []) }
    if !st.macroDefs.isEmpty then
      match findKeyword? [.macroStart, .macroEnd] tokens with
      | some _ => none
      | none => some (.ignored start)
    else if !st.repeats.isEmpty then
      match findKeyword? [.rept, .endr] tokens with
      | some (_, word) => some (bare word)
      | none => some (.ignored start)
    else
      match findKeyword? [.ifTrue, .elseIf, .elseAll, .endIf] tokens with
      | none => if st.conditionsTrue then none else some (.ignored start)
      | some (.ifTrue, word) => if st.conditionsTrue then none else some (bare word)
      | some (.elseIf, word) =>
        if st.outerConditionsTrue && !(st.conditionals.head?.any (·.taken)) then none
        else some (bare word)
      | some (_, word) => some (bare word)

end Sm83Asm
