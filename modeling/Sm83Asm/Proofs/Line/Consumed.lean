import Sm83Asm.Proofs.Line.Printing
import Sm83Asm.Proofs.Run.History

set_option autoImplicit false

/-!
# What a line is read from

`ReadFrom` relates expressions, operations and lines to the tokens that they are read from, without
precedences and without a parser. The parser follows this grammar: every part of it either reports
once, or it takes tokens that belong to what it returns and leaves the others alone. At the end of a
line none are left.

Main statement: `parse_complete_or_reported_once`. A list of tokens becomes a line that is read from
all of them, or there is one report of the parser, and a line that could not be parsed changes
nothing but the line number and the diagnostics.
-/

namespace Sm83Asm

/-! ## The grammar -/

namespace Expr

mutual

/-- The tokens that an expression is read from. Parentheses can stand around each of its parts. -/
inductive ReadFrom : Expr → List Token → Prop
  | number {t : Token} (hk : t.kind = .number) : ReadFrom (.number t) [t]
  | string {t : Token} (hk : t.kind = .string) : ReadFrom (.string t) [t]
  | identifier {t : Token} (hk : t.kind = .identifier) : ReadFrom (.identifier t) [t]
  | unary {op : UnaryOp} {t : Token} {e : Expr} {ts : List Token} (hk : t.kind = .operator)
      (hop : UnaryOp.ofSymbol? t.text = some op) (he : ReadFrom e ts) :
      ReadFrom (.unary op t e) (t :: ts)
  | binary {op : BinaryOp} {t : Token} {l r : Expr} {ls rs : List Token} (hk : t.kind = .operator)
      (hop : BinaryOp.ofSymbol? t.text = some op) (hl : ReadFrom l ls) (hr : ReadFrom r rs) :
      ReadFrom (.binary op t l r) (ls ++ t :: rs)
  | call {name start close : Token} {args : List Expr} {ns ts : List Token}
      (hname : ReadFrom (.identifier name) ns) (hstart : start.kind = .openParen)
      (hclose : close.kind = .closeParen) (hargs : AllReadFrom args ts) :
      ReadFrom (.call name args) (ns ++ start :: (ts ++ [close]))
  | bracket {t close : Token} {e : Expr} {ts : List Token} (hk : t.kind = .openBracket)
      (hclose : close.kind = .closeBracket) (he : ReadFrom e ts) :
      ReadFrom (.bracket t e) (t :: (ts ++ [close]))
  | index {t close : Token} {b e : Expr} {bs ts : List Token} (hk : t.kind = .openBracket)
      (hclose : close.kind = .closeBracket) (hb : ReadFrom b bs) (he : ReadFrom e ts) :
      ReadFrom (.index t b e) (bs ++ t :: (ts ++ [close]))
  | enclosed {start close : Token} {e : Expr} {ts : List Token} (hstart : start.kind = .openParen)
      (hclose : close.kind = .closeParen) (he : ReadFrom e ts) :
      ReadFrom e (start :: (ts ++ [close]))

/-- The tokens that a list of expressions is read from, with the commas between them. -/
inductive AllReadFrom : List Expr → List Token → Prop
  | nil : AllReadFrom [] []
  | singleton {e : Expr} {ts : List Token} (he : ReadFrom e ts) : AllReadFrom [e] ts
  | cons {e : Expr} {es : List Expr} {comma : Token} {ts rest : List Token} (he : ReadFrom e ts)
      (hcomma : comma.kind = .comma) (hne : es ≠ []) (hes : AllReadFrom es rest) :
      AllReadFrom (e :: es) (ts ++ comma :: rest)

end

/-- An expression is read from at least one token. -/
theorem ReadFrom.ne_nil {e : Expr} {ts : List Token} (h : e.ReadFrom ts) : ts ≠ [] := by
  cases h with
  | number | string | identifier | unary | bracket | enclosed => exact List.cons_ne_nil _ _
  | binary | call | index => exact List.append_ne_nil_of_right_ne_nil _ (List.cons_ne_nil _ _)

end Expr

/-- The tokens that an operation is read from, in front of the token `next`. Arguments that are kept
as text take all tokens up to the end of the arguments. -/
inductive Operation.ReadFrom (next : Token) : Operation → List Token → Prop
  | directive {t : Token} {args : List Expr} {ts : List Token} (hk : t.kind = .directive)
      (hargs : Expr.AllReadFrom args ts) : ReadFrom next (.directive t args) (t :: ts)
  | keyword {t : Token} {args : List Expr} {ts : List Token} (hk : t.kind = .keyword)
      (hargs : Expr.AllReadFrom args ts) : ReadFrom next (.keyword t args) (t :: ts)
  | opcode {t : Token} {args : List Expr} {ts : List Token}
      (hk : t.kind = .opcode ∨ t.kind = .keyword) (hargs : Expr.AllReadFrom args ts) :
      ReadFrom next (.opcode t args) (t :: ts)
  | options {t : Token} {args ts : List Token} (hk : t.kind = .keyword)
      (hargs : Parser.rawList next ts = (args, [])) : ReadFrom next (.options t args) (t :: ts)
  | macroCall {t : Token} {args ts : List Token} (hk : t.kind = .macroCall)
      (hargs : Parser.rawList next ts = (args, [])) : ReadFrom next (.macroCall t args) (t :: ts)
  | assign {t : Token} {value : Expr} {ts : List Token} (hk : t.kind = .operator)
      (htext : t.text = "=") (hvalue : value.ReadFrom ts) :
      ReadFrom next (.assign t value) (t :: ts)

/-- The name of a label and the colons behind it. -/
def LabelDef.tokens (label : LabelDef) : List Token := label.name :: label.terminator.toList

/-- A name that can be a label, with or without one of its two marks. -/
def LabelDef.IsSpelled (label : LabelDef) : Prop :=
  label.name.kind = .label ∧
    ∀ mark ∈ label.terminator, mark.kind = .colon ∨ mark.kind = .doubleColon

/-- The tokens that the operation of a line is read from, which are none where there is none. -/
def OperationReadFrom (next : Token) (operation : Option Operation) (tokens : List Token) : Prop :=
  match operation with
  | some op => op.ReadFrom next tokens
  | none => tokens = []

/-- The tokens that a line is read from: the start mark, what the line holds, and the end mark where
there is one. The token `eol` is what is found behind the last one. -/
inductive Line.ReadFrom (eol : Token) : Line → List Token → Prop
  | intro {start : Token} {label : Option LabelDef} {operation : Option Operation}
      {comment stop : Option Token} {ts : List Token} (hstart : start.kind = .startOfLine)
      (hlabel : ∀ l ∈ label, l.IsSpelled)
      (hoperation :
        OperationReadFrom (Parser.peek eol (comment.toList ++ stop.toList)) operation ts)
      (hcomment : ∀ t ∈ comment, t.kind = .comment) (hstop : ∀ t ∈ stop, t.kind = .endOfLine) :
      ReadFrom eol { start, label, operation, comment }
        (start :: (label.toList.flatMap LabelDef.tokens ++
          (ts ++ (comment.toList ++ stop.toList))))

/-- The end mark stands nowhere but at the end. -/
def EndsOnce (tokens : List Token) : Prop := tokens.Pairwise fun t _ => t.kind ≠ .endOfLine

namespace Parser

variable {eol : Token}

/-! ## One report or none -/

/-- A part of the parser gives something with a property, or it stops with a report of the
grammar. -/
def Yields {α : Type} (P : α → Prop) : Except ParseFailure α → Prop
  | .ok a => P a
  | .error failure => ∃ cause token, failure.report = .grammar cause token

section Yields

variable {α β : Type} {P : α → Prop} {Q : β → Prop} {x : Except ParseFailure α}

/-- A failure yields nothing. -/
theorem yields_fail (cause : GrammarCause) (token : Token) (rest : List Token) :
    Yields P (fail cause token rest) := ⟨cause, token, rfl⟩

/-- What is read first is passed on to what is read then. -/
theorem Yields.bind {f : α → Except ParseFailure β} (hx : Yields P x)
    (hf : ∀ a, P a → Yields Q (f a)) : Yields Q (x.bind f) := by
  cases x with
  | error failure => exact hx
  | ok a => exact hf a hx

/-- What is yielded holds in a weaker form. -/
theorem Yields.mono {P' : α → Prop} (hx : Yields P x) (h : ∀ a, P a → P' a) : Yields P' x := by
  cases x with
  | error failure => exact hx
  | ok a => exact h a hx

/-- What is made of a result. -/
theorem Yields.map {f : α → β} (hx : Yields P x) (hf : ∀ a, P a → Q (f a)) :
    Yields Q (x.map f) := by
  cases x with
  | error failure => exact hx
  | ok a => exact hf a hx

end Yields

/-- A token that is expected is the first one. -/
theorem yields_expect (kind : TokenKind) (tokens : List Token) :
    Yields (fun p => p.value.kind = kind ∧ tokens = p.value :: p.rest)
      (expect eol kind tokens) := by
  unfold expect
  split
  · exact yields_fail _ _ _
  · split
    · rename_i hk
      exact ⟨beq_iff_eq.1 hk, rfl⟩
    · exact yields_fail _ _ _

/-- A token that is skipped is the first one. -/
theorem yields_skip (kind : TokenKind) (tokens : List Token) :
    Yields (fun rest => ∃ t, t.kind = kind ∧ tokens = t :: rest) (skip eol kind tokens) :=
  (yields_expect kind tokens).map fun p h => ⟨p.value, h⟩

/-! ## Expressions -/

/-- Of some tokens, those that are not left were taken, and with what was made of them they are in
a relation. -/
def Took {α : Type} (tokens : List Token) (R : α → List Token → Prop) (p : α × List Token) : Prop :=
  ∃ ts, tokens = ts ++ p.2 ∧ R p.1 ts

/-- What was taken behind some tokens was taken together with them. -/
theorem Took.behind {α : Type} {front rest : List Token} {R R' : α → List Token → Prop}
    {p : α × List Token} (h : Took rest R p) (hR : ∀ a ts, R a ts → R' a (front ++ ts)) :
    Took (front ++ rest) R' p := by
  obtain ⟨ts, rfl, hp⟩ := h
  exact ⟨front ++ ts, (List.append_assoc _ _ _).symm, hR p.1 ts hp⟩

/-- The relation of the arguments of a call to the tokens up to its closing parenthesis. -/
def ReadToClose (args : List Expr) (tokens : List Token) : Prop :=
  ∃ ts close, tokens = ts ++ [close] ∧ close.kind = .closeParen ∧ Expr.AllReadFrom args ts

/-- The functions that read expressions, started on some tokens, take what they return. -/
structure ReadsAll (eol : Token) (tokens : List Token) : Prop where
  operand : Yields (Took tokens Expr.ReadFrom) (readOperand eol tokens)
  attached : ∀ {floor left front}, left.ReadFrom front →
    Yields (Took tokens fun e ts => e.ReadFrom (front ++ ts)) (readAttached eol floor left tokens)
  expression : ∀ {floor}, Yields (Took tokens Expr.ReadFrom) (readExpression eol floor tokens)
  sequence : Yields (Took tokens fun es ts => es ≠ [] ∧ Expr.AllReadFrom es ts)
    (readSequence eol tokens)
  arguments : Yields (Took tokens ReadToClose) (readArguments eol tokens)

section Step

variable {tokens : List Token}
  (ih : ∀ ts : List Token, ts.length < tokens.length → ReadsAll eol ts)

include ih

/-- An operand is read from the tokens that it takes. -/
theorem reads_operand : Yields (Took tokens Expr.ReadFrom) (readOperand eol tokens) := by
  cases tokens with
  | nil =>
    unfold readOperand
    rw [operand]
    exact yields_fail _ _ _
  | cons t ts =>
    have hinner := ih ts (Nat.lt_succ_self _)
    rw [readOperand_cons]
    split
    · rename_i hk
      exact ⟨[t], rfl, .number hk⟩
    · rename_i hk
      exact ⟨[t], rfl, .string hk⟩
    · rename_i hk
      exact ⟨[t], rfl, .identifier hk⟩
    · rename_i hk
      split
      · exact yields_fail _ _ _
      · rename_i op hop
        apply hinner.expression.map
        rintro ⟨e, rest⟩ ⟨front, rfl, he⟩
        exact ⟨t :: front, rfl, .unary hk hop he⟩
    · rename_i hk
      apply hinner.expression.bind
      rintro ⟨e, _⟩ ⟨front, rfl, he⟩
      apply (yields_skip _ _).map
      rintro rest ⟨close, hclose, rfl⟩
      exact ⟨t :: (front ++ [close]), by simp, .enclosed hk hclose he⟩
    · rename_i hk
      apply hinner.expression.bind
      rintro ⟨e, _⟩ ⟨front, rfl, he⟩
      apply (yields_skip _ _).map
      rintro rest ⟨close, hclose, rfl⟩
      exact ⟨t :: (front ++ [close]), by simp, .bracket hk hclose he⟩
    · exact yields_fail _ _ _
    · exact yields_fail _ _ _

/-- What is attached to an operand that grew by some tokens is attached to the operand itself. -/
theorem reads_attached_behind {floor : Nat} {left : Expr} (front more : List Token)
    {rest : List Token} (htokens : tokens = more ++ rest) (hne : more ≠ [])
    (hleft : left.ReadFrom (front ++ more)) :
    Yields (Took tokens fun e ts => e.ReadFrom (front ++ ts))
      (readAttached eol floor left rest) := by
  subst htokens
  have hlt : rest.length < (more ++ rest).length := by
    rw [List.length_append]
    exact Nat.lt_add_of_pos_left (List.length_pos_iff.2 hne)
  apply ((ih rest hlt).attached hleft).mono
  intro p hp
  apply hp.behind
  intro e ts he
  rwa [List.append_assoc] at he

/-- What is attached to an operand is read from the tokens behind it. -/
theorem reads_attached {floor : Nat} {left : Expr} {front : List Token}
    (hleft : left.ReadFrom front) :
    Yields (Took tokens fun e ts => e.ReadFrom (front ++ ts))
      (readAttached eol floor left tokens) := by
  cases tokens with
  | nil =>
    rw [readAttached_nil]
    exact ⟨[], rfl, by simpa using hleft⟩
  | cons t ts =>
    have hinner := ih ts (Nat.lt_succ_self _)
    rw [readAttached_cons]
    split
    · exact ⟨[], rfl, by simpa using hleft⟩
    split
    · rename_i hk
      split
      · exact yields_fail _ _ _
      · rename_i op hop
        apply hinner.expression.bind
        rintro ⟨right, rest⟩ ⟨rs, rfl, hright⟩
        exact reads_attached_behind ih front (t :: rs) rfl (List.cons_ne_nil _ _)
          (.binary hk hop hleft hright)
    · rename_i hk
      split
      · apply hinner.arguments.bind
        rintro ⟨args, rest⟩ ⟨_, rfl, as, close, rfl, hclose, hargs⟩
        exact reads_attached_behind ih front (t :: (as ++ [close])) rfl (List.cons_ne_nil _ _)
          (.call hleft hk hclose hargs)
      · exact yields_fail _ _ _
    · rename_i hk
      apply hinner.expression.bind
      rintro ⟨inner, _⟩ ⟨is, rfl, he⟩
      apply (yields_skip _ _).bind
      rintro rest ⟨close, hclose, rfl⟩
      exact reads_attached_behind ih front (t :: (is ++ [close])) (by simp)
        (List.cons_ne_nil _ _) (.index hk hclose hleft he)
    · exact yields_fail _ _ _

/-- An expression is read from the tokens that it takes. -/
theorem reads_expression {floor : Nat} :
    Yields (Took tokens Expr.ReadFrom) (readExpression eol floor tokens) := by
  rw [readExpression_eq]
  apply (reads_operand ih).bind
  rintro ⟨left, rest⟩ ⟨ts, htokens, hleft⟩
  exact reads_attached_behind ih [] ts htokens hleft.ne_nil hleft

/-- Expressions between commas are read from all the tokens that they take. -/
theorem reads_sequence :
    Yields (Took tokens fun es ts => es ≠ [] ∧ Expr.AllReadFrom es ts)
      (readSequence eol tokens) := by
  rw [readSequence_eq]
  apply (reads_expression ih).bind
  rintro ⟨first, rest⟩ ⟨ts, rfl, hfirst⟩
  have hsole : Took (ts ++ rest) (fun es ts => es ≠ [] ∧ Expr.AllReadFrom es ts) ([first], rest) :=
    ⟨ts, rfl, List.cons_ne_nil _ _, .singleton hfirst⟩
  cases rest with
  | nil => exact hsole
  | cons t rest =>
    dsimp only
    split
    · rename_i hk
      have hlt : rest.length < (ts ++ t :: rest).length := by
        rw [List.length_append, List.length_cons]
        omega
      apply (ih rest hlt).sequence.map
      rintro ⟨others, rest⟩ ⟨more, rfl, hne, hothers⟩
      exact ⟨ts ++ t :: more, by simp, List.cons_ne_nil _ _,
        .cons hfirst (beq_iff_eq.1 hk) hne hothers⟩
    · exact hsole

/-- The arguments of a call are read up to the parenthesis that closes it. -/
theorem reads_arguments : Yields (Took tokens ReadToClose) (readArguments eol tokens) := by
  rw [readArguments_eq]
  split
  · apply (yields_skip _ _).map
    rintro rest ⟨close, hclose, rfl⟩
    exact ⟨[close], rfl, [], close, rfl, hclose, .nil⟩
  · apply (reads_sequence ih).bind
    rintro ⟨args, _⟩ ⟨ts, rfl, -, hargs⟩
    apply (yields_skip _ _).map
    rintro rest ⟨close, hclose, rfl⟩
    exact ⟨ts ++ [close], by simp, ts, close, rfl, hclose, hargs⟩

end Step

/-- Everything that can be read is read from the tokens that it takes, by induction on their number.
-/
theorem readsAll (eol : Token) (tokens : List Token) : ReadsAll eol tokens := by
  -- Each function goes on with fewer tokens, or hands the same ones to the one above.
  induction hn : tokens.length using Nat.strongRecOn generalizing tokens with
  | ind n ih =>
    have ih' : ∀ ts : List Token, ts.length < tokens.length → ReadsAll eol ts :=
      fun ts hlt => ih ts.length (hn ▸ hlt) ts rfl
    exact
      { operand := reads_operand ih'
        attached := reads_attached ih'
        expression := reads_expression ih'
        sequence := reads_sequence ih'
        arguments := reads_arguments ih' }

/-! ## Arguments kept as text -/

/-- The next token, when there are some in front of the rest. -/
theorem peek_append (ts rest : List Token) : peek eol (ts ++ rest) = peek (peek eol rest) ts := by
  cases ts with
  | nil => rfl
  | cons t ts => rfl

/-- An argument ends at a comma, at the end of the line and at a comment. -/
theorem rawArgument_of_stop {depth : Nat} {t : Token}
    (h : (endsArguments t || (t.kind == .comma && depth == 0)) = true) (last : Option Nat)
    (ts : List Token) : rawArgument depth last (t :: ts) = ("", t :: ts) := by
  unfold rawArgument
  rw [if_pos h]

/-- Any other token is a part of the argument, behind a space if there was one. -/
theorem rawArgument_of_not_stop {depth : Nat} {t : Token}
    (h : ¬ (endsArguments t || (t.kind == .comma && depth == 0)) = true) (last : Option Nat)
    (ts : List Token) :
    rawArgument depth last (t :: ts) =
      ((if last.any (· < t.column) then " " else "") ++ t.text ++
        (rawArgument (depthAfter depth t) (some t.finish) ts).1,
        (rawArgument (depthAfter depth t) (some t.finish) ts).2) := by
  rw [rawArgument.eq_def]
  dsimp only
  rw [if_neg h]

/-- An argument ends in front of a certain token, or behind the last one. -/
theorem exists_rawArgument (depth : Nat) (last : Option Nat) (tokens : List Token) :
    ∃ ts, tokens = ts ++ (rawArgument depth last tokens).2 ∧ ∀ rest,
      rest = [] ∨ rest.head? = (rawArgument depth last tokens).2.head? →
        rawArgument depth last (ts ++ rest) = ((rawArgument depth last tokens).1, rest) := by
  induction tokens generalizing depth last with
  | nil =>
    refine ⟨[], rfl, fun rest hrest => ?_⟩
    obtain rfl : rest = [] := hrest.elim id List.head?_eq_none_iff.1
    rfl
  | cons t tokens ih =>
    by_cases hstop : (endsArguments t || (t.kind == .comma && depth == 0)) = true
    · rw [rawArgument_of_stop hstop]
      refine ⟨[], rfl, fun rest hrest => ?_⟩
      rcases hrest with rfl | hhead
      · rfl
      · obtain ⟨rest, rfl⟩ := List.head?_eq_some_iff.1 hhead
        rw [List.nil_append, rawArgument_of_stop hstop]
    · obtain ⟨ts, htokens, hts⟩ := ih (depthAfter depth t) (some t.finish)
      rw [rawArgument_of_not_stop hstop]
      refine ⟨t :: ts, congrArg (t :: ·) htokens, fun rest hrest => ?_⟩
      rw [List.cons_append, rawArgument_of_not_stop hstop, hts rest hrest]

/-- Behind a comma comes another argument. -/
theorem rawSequence_of_comma {tokens ts : List Token} {text : String} {t : Token}
    (h : rawArgument 0 none tokens = (text, t :: ts)) (hk : t.kind = .comma) :
    rawSequence eol tokens =
      ({ peek eol tokens with text } :: (rawSequence eol ts).1, (rawSequence eol ts).2) := by
  rw [rawSequence.eq_def]
  split
  · rename_i heq
    exact absurd (heq.symm.trans h) (by simp)
  · rename_i heq
    obtain ⟨rfl, htail⟩ := Prod.mk.inj (heq.symm.trans h)
    obtain ⟨rfl, rfl⟩ := List.cons.inj htail
    rw [if_pos (beq_iff_eq.2 hk)]

/-- The last argument ends without a comma. -/
theorem rawSequence_of_last {tokens rest : List Token} {text : String}
    (h : rawArgument 0 none tokens = (text, rest)) (hrest : ∀ t ∈ rest.head?, t.kind ≠ .comma) :
    rawSequence eol tokens = ([{ peek eol tokens with text }], rest) := by
  rw [rawSequence.eq_def]
  split
  · rename_i heq
    obtain ⟨rfl, rfl⟩ := Prod.mk.inj (heq.symm.trans h)
    rfl
  · rename_i heq
    obtain ⟨rfl, rfl⟩ := Prod.mk.inj (heq.symm.trans h)
    rw [if_neg fun hk => hrest _ rfl (beq_iff_eq.1 hk)]

/-- One or more arguments that are kept as text take the tokens that are not left. -/
theorem took_rawSequence (eol : Token) (tokens : List Token) :
    ∃ ts, tokens = ts ++ (rawSequence eol tokens).2 ∧
      rawSequence (peek eol (rawSequence eol tokens).2) ts = ((rawSequence eol tokens).1, []) := by
  rcases harg : rawArgument 0 none tokens with ⟨text, rest⟩
  obtain ⟨front, htokens, hfront⟩ := exists_rawArgument 0 none tokens
  rw [harg] at htokens hfront
  by_cases hlast : ∀ t ∈ rest.head?, t.kind ≠ .comma
  · rw [rawSequence_of_last harg hlast]
    refine ⟨front, htokens, ?_⟩
    have hends := hfront [] (.inl rfl)
    rw [List.append_nil] at hends
    rw [rawSequence_of_last hends (by simp), htokens, peek_append]
  · obtain ⟨t, ts, rfl, hk⟩ : ∃ t ts, rest = t :: ts ∧ t.kind = .comma := by
      cases rest with
      | nil => exact absurd (by simp) hlast
      | cons t ts => exact ⟨t, ts, rfl, by simpa using hlast⟩
    have hlt : ts.length < tokens.length := by
      rw [htokens, List.length_append, List.length_cons]
      omega
    obtain ⟨more, hmore, hothers⟩ := took_rawSequence eol ts
    rw [rawSequence_of_comma harg hk]
    refine ⟨front ++ t :: more, ?_, ?_⟩
    · rw [List.append_assoc, List.cons_append, ← hmore]
      exact htokens
    · have hgoes := hfront (t :: more) (.inr rfl)
      rw [rawSequence_of_comma hgoes hk, hothers, htokens, peek_append, peek_append]
      rfl
termination_by tokens.length

/-- Raw arguments are read from the tokens that they take. -/
theorem took_rawList (eol : Token) (tokens : List Token) :
    ∃ ts, tokens = ts ++ (rawList eol tokens).2 ∧
      rawList (peek eol (rawList eol tokens).2) ts = ((rawList eol tokens).1, []) := by
  unfold rawList
  split
  · rename_i hends
    exact ⟨[], rfl, if_pos hends⟩
  · rename_i hends
    obtain ⟨ts, htokens, hts⟩ := took_rawSequence eol tokens
    refine ⟨ts, htokens, ?_⟩
    rw [htokens, peek_append] at hends
    rw [if_neg hends, hts]

/-! ## Lines -/

/-- Expressions of a keyword are read from all the tokens that they take. -/
theorem yields_expressionList (tokens : List Token) :
    Yields (Took tokens Expr.AllReadFrom) (expressionList eol tokens) := by
  unfold expressionList
  split
  · exact ⟨[], rfl, .nil⟩
  · have hread := (readsAll eol tokens).sequence
    apply Yields.mono (P := Took tokens fun es ts => es ≠ [] ∧ Expr.AllReadFrom es ts) hread
    rintro p ⟨ts, htokens, -, hargs⟩
    exact ⟨ts, htokens, hargs⟩

/-- The label of a line takes its own tokens. -/
theorem took_labelPart (tokens : List Token) :
    Took tokens (fun label ts => (∀ l ∈ label, l.IsSpelled) ∧
      ts = label.toList.flatMap LabelDef.tokens) (labelPart tokens) := by
  cases tokens with
  | nil => exact ⟨[], rfl, by simp [labelPart], rfl⟩
  | cons t ts =>
    unfold labelPart
    dsimp only
    split
    · rename_i hk
      have hbare : LabelDef.IsSpelled ⟨t, none⟩ := ⟨beq_iff_eq.1 hk, by simp⟩
      cases ts with
      | nil => exact ⟨[t], rfl, by simpa using hbare, rfl⟩
      | cons mark ts =>
        dsimp only
        split
        · rename_i hmark
          rw [Bool.or_eq_true, beq_iff_eq, beq_iff_eq] at hmark
          have hspelled : LabelDef.IsSpelled ⟨t, some mark⟩ :=
            ⟨beq_iff_eq.1 hk, by simpa using hmark⟩
          exact ⟨[t, mark], rfl, by simpa using hspelled, rfl⟩
        · exact ⟨[t], rfl, by simpa using hbare, rfl⟩
    · exact ⟨[], rfl, by simp, rfl⟩

/-- The operation of a line takes its own tokens. -/
def TookOperation (eol : Token) (tokens : List Token) (p : Option Operation × List Token) : Prop :=
  ∃ ts, tokens = ts ++ p.2 ∧ OperationReadFrom (peek eol p.2) p.1 ts

/-- An operation whose arguments are expressions. -/
theorem yields_listed {make : List Expr → Operation} {t : Token}
    (hmake : ∀ {next args ts}, Expr.AllReadFrom args ts → (make args).ReadFrom next (t :: ts))
    (ts : List Token) :
    Yields (TookOperation eol (t :: ts))
      ((expressionList eol ts).map fun (args, rest) => (some (make args), rest)) := by
  apply (yields_expressionList ts).map
  rintro ⟨args, rest⟩ ⟨front, rfl, hargs⟩
  exact ⟨t :: front, rfl, hmake hargs⟩

/-- An operation whose arguments are kept as text. -/
theorem took_raw {make : List Token → Operation} {t : Token}
    (hmake : ∀ {next args ts}, rawList next ts = (args, []) → (make args).ReadFrom next (t :: ts))
    (ts : List Token) :
    TookOperation eol (t :: ts) (some (make (rawList eol ts).1), (rawList eol ts).2) := by
  obtain ⟨front, hts, hargs⟩ := took_rawList eol ts
  exact ⟨t :: front, congrArg (t :: ·) hts, hmake hargs⟩

/-- An operation is read from its word and the tokens behind it. -/
theorem yields_operationPart (label : Option LabelDef) (tokens : List Token) :
    Yields (TookOperation eol tokens) (operationPart eol label tokens) := by
  have hnone : TookOperation eol tokens (none, tokens) := ⟨[], rfl, rfl⟩
  cases tokens with
  | nil => exact hnone
  | cons t ts =>
    rw [operationPart]
    split
    · rename_i hk
      exact yields_listed (.directive hk) ts
    · rename_i hk
      exact yields_listed (.opcode (.inl hk)) ts
    · rename_i hk
      split
      · exact yields_listed (.opcode (.inr hk)) ts
      · split
        · exact took_raw (.options hk) ts
        · exact yields_listed (.keyword hk) ts
    · rename_i hk
      exact took_raw (.macroCall hk) ts
    · rename_i hk
      split
      · rename_i htext
        have hmap : ((expression eol 0 ts).map fun value =>
            (some (Operation.assign t value.value), value.rest)) =
              (readExpression eol 0 ts).map fun p => (some (.assign t p.1), p.2) := by
          unfold readExpression
          cases expression eol 0 ts with
          | error failure => rfl
          | ok p => rfl
        rw [hmap]
        apply (readsAll _ ts).expression.map
        rintro ⟨e, rest⟩ ⟨front, rfl, he⟩
        exact ⟨t :: front, rfl, .assign hk (beq_iff_eq.1 htext) he⟩
      · exact hnone
    · exact hnone

/-- A comment is at most one token, the last one. -/
theorem took_commentPart (tokens : List Token) :
    Took tokens (fun comment ts => (∀ t ∈ comment, t.kind = .comment) ∧ ts = comment.toList)
      (commentPart tokens) := by
  cases tokens with
  | nil => exact ⟨[], rfl, by simp [commentPart], rfl⟩
  | cons t ts =>
    rw [commentPart]
    split
    · rename_i hk
      exact ⟨[t], rfl, by simpa using hk, rfl⟩
    · exact ⟨[], rfl, by simp, rfl⟩

/-- Where the end mark stands at the end only, nothing stands behind it. -/
theorem EndsOnce.eq_nil {front more : List Token} {t : Token} (h : EndsOnce (front ++ t :: more))
    (hk : t.kind = .endOfLine) : more = [] := by
  cases more with
  | nil => rfl
  | cons u more =>
    have htail := (List.pairwise_append.1 h).2.1
    exact absurd hk ((List.pairwise_cons.1 htail).1 u List.mem_cons_self)

/-- A line takes all of its tokens when the end mark stands at the end only. -/
theorem yields_line (eol : Token) (tokens : List Token) :
    Yields (fun parsed => EndsOnce tokens → parsed.ReadFrom eol tokens) (line eol tokens) := by
  unfold line
  apply (yields_expect .startOfLine tokens).bind
  rintro start ⟨hstart, htokens⟩
  -- Each part takes its tokens off the front, and the end mark is what is left.
  have hlabel := took_labelPart start.rest
  generalize labelPart start.rest = part at hlabel ⊢
  obtain ⟨label, behind⟩ := part
  obtain ⟨_, hstartRest, hspelled, rfl⟩ := hlabel
  apply (yields_operationPart label behind).bind
  rintro ⟨operation, rest⟩ ⟨ts, hbehind, hoperation⟩
  have hcomment := took_commentPart rest
  dsimp only at hstartRest hbehind hspelled hoperation ⊢
  generalize commentPart rest = part at hcomment ⊢
  obtain ⟨comment, stop⟩ := part
  obtain ⟨_, hrest, hkind, rfl⟩ := hcomment
  dsimp only at hrest hkind ⊢
  rw [hstartRest, hbehind, hrest] at htokens
  rw [hrest] at hoperation
  generalize start.value = first at hstart htokens ⊢
  cases stop with
  | nil =>
    intro _
    rw [htokens]
    have hend : ∀ t ∈ (none : Option Token), t.kind = .endOfLine := by simp
    exact .intro hstart hspelled hoperation hkind hend
  | cons t more =>
    dsimp only
    split
    · rename_i hend
      intro honce
      rw [htokens] at honce ⊢
      rw [beq_iff_eq] at hend
      have honce : EndsOnce ((first :: (label.toList.flatMap LabelDef.tokens ++
          (ts ++ comment.toList))) ++ t :: more) := by simpa using honce
      obtain rfl : more = [] := EndsOnce.eq_nil honce hend
      have hends : ∀ u ∈ some t, u.kind = .endOfLine := by simpa using hend
      exact .intro hstart hspelled hoperation hkind hends
    · exact yields_fail _ _ _

end Parser

/-! ## Whole lines -/

/-- Parsing gives a line and no report, or it stops with one report of the parser. -/
theorem parseLine_cases (tokens : List Token) :
    (∃ stop cause token, parseLine tokens = (.invalid stop, [.grammar cause token])) ∨
      ∃ parsed, parseLine tokens = (.line parsed, []) ∧
        (EndsOnce tokens → parsed.ReadFrom (Parser.endToken tokens)
          (tokens.filter fun t => !t.kind.isTrivia)) := by
  have hread := Parser.yields_line (Parser.endToken tokens)
    (tokens.filter fun t => !t.kind.isTrivia)
  unfold parseLine
  dsimp only
  cases hline : Parser.line (Parser.endToken tokens)
      (tokens.filter fun t => !t.kind.isTrivia) with
  | ok parsed =>
    rw [hline] at hread
    exact .inr ⟨parsed, rfl, fun h => hread (List.Pairwise.filter _ h)⟩
  | error failure =>
    rw [hline] at hread
    obtain ⟨cause, token, hreport⟩ := hread
    exact .inl ⟨_, cause, token, by dsimp only; rw [hreport]⟩

/-- A line that is passed over is not one that could not be parsed. -/
theorem State.passOver?_ne_invalid (st : State) (tokens : List Token) (stop : Token) :
    st.passOver? tokens ≠ some (.invalid stop) := by
  intro h
  unfold State.passOver? at h
  repeat' split at h
  all_goals exact absurd h (by simp)

namespace Assembler

/-- The reports of a line that could not be parsed are those of the lexer and one of the parser. -/
theorem statement_of_invalid {line : Nat} {text : String} {st : State} {stop : Token}
    (h : (statement line text st).1 = .invalid stop) :
    ∃ cause token, (statement line text st).2 =
      st.record ((st.tokenize line text.toList).2 ++ [.grammar cause token]) := by
  unfold statement at h ⊢
  dsimp only at h ⊢
  split at h
  · rename_i passed hpass
    obtain rfl : passed = .invalid stop := h
    exact absurd hpass (st.passOver?_ne_invalid _ stop)
  · rcases parseLine_cases (st.tokenize line text.toList).1 with
      ⟨stop', cause, token, hparse⟩ | ⟨parsed, hparse, -⟩
    · refine ⟨cause, token, ?_⟩
      rw [hparse]
      simp [State.record]
    · rw [hparse] at h
      exact absurd h (by simp)

/-- Parsing fails once and without effect. A list of tokens that has the end mark at its end only
becomes a line that is read from all tokens but blanks, without a report, or there is exactly one
report, of the parser. And when the text of a line could not be parsed, the reports of the lexer and
that one are added to the diagnostics, and nothing else changes but the line number. -/
theorem parse_complete_or_reported_once :
    (∀ tokens, EndsOnce tokens →
      (∃ stop cause token, parseLine tokens = (.invalid stop, [.grammar cause token])) ∨
        ∃ parsed, parseLine tokens = (.line parsed, []) ∧
          parsed.ReadFrom (Parser.endToken tokens) (tokens.filter fun t => !t.kind.isTrivia)) ∧
      ∀ (asm : Assembler) (line : Nat) (text : String) (stop : Token),
        (statement line text { asm.state with line }).1 = .invalid stop →
          ∃ cause token, asm.assembleLine line text = asm.mapState fun st => { st with
            line
            diagnostics := st.diagnostics ++
              ((({ st with line }.tokenize line text.toList).2 ++ [.grammar cause token]).map
                fun report => ⟨report, st.file, line⟩).toArray } := by
  constructor
  · intro tokens honce
    rcases parseLine_cases tokens with hinvalid | ⟨parsed, hparse, hread⟩
    · exact .inl hinvalid
    · exact .inr ⟨parsed, hparse, hread honce⟩
  · intro asm line text stop h
    obtain ⟨cause, token, hstate⟩ := statement_of_invalid h
    refine ⟨cause, token, ?_⟩
    have hnone : parsed? line text asm = none := by
      unfold parsed?
      rcases hs : statement line text { asm.state with line } with ⟨found, st⟩
      rw [hs] at h
      obtain rfl : found = .invalid stop := h
      rfl
    -- Where nothing was parsed there is nothing to expand, so the level makes no difference.
    have hassemble : asm.assembleLine line text =
        { asm with state := (statement line text { asm.state with line }).2 } := by
      unfold assembleLine
      cases asm.state.config.maxDepth with
      | zero => exact runLine_eq_of_not_parsed none hnone
      | succ levels => exact runLine_eq_of_not_parsed (some (runner levels)) hnone
    rw [hassemble, hstate]
    rfl

/-- The tokens of a line with a label, a call and a comment. -/
def callLine : List Token :=
  (State.ofConfig {}).rawTokens 1 "start: dw HIGH((start)) + 2, \"a\" ; two words".toList

/-- A line whose operand is missing behind a comma. -/
def unfinishedLine : String := "start: ld a,"

theorem parse_complete_or_reported_once_samples :
    (∃ parsed, parseLine callLine = (.line parsed, []) ∧
      parsed.ReadFrom (Parser.endToken callLine) (callLine.filter fun t => !t.kind.isTrivia)) ∧
      ∃ cause token, (new {} (.memory {})).assembleLine 1 unfinishedLine =
        (new {} (.memory {})).mapState fun st => { st with
          line := 1
          diagnostics := st.diagnostics ++
            ((({ st with line := 1 }.tokenize 1 unfinishedLine.toList).2 ++
              [.grammar cause token]).map fun report => ⟨report, st.file, 1⟩).toArray } := by
  obtain ⟨hparse, hinert⟩ := parse_complete_or_reported_once
  constructor
  · have honce : EndsOnce callLine := by
      unfold EndsOnce
      decide +kernel
    have hquiet : (parseLine callLine).2.isEmpty = true := by
      decide +kernel
    rcases hparse callLine honce with ⟨stop, cause, token, hinvalid⟩ | hline
    · rw [hinvalid] at hquiet
      exact absurd hquiet (by simp)
    · exact hline
  · have hfails : (match (statement 1 unfinishedLine
        { (new {} (.memory {})).state with line := 1 }).1 with
      | .invalid _ => true
      | _ => false) = true := by
      decide +kernel
    split at hfails
    · rename_i stop hinvalid
      exact hinert (new {} (.memory {})) 1 unfinishedLine stop hinvalid
    · exact absurd hfails (by decide)

end Assembler

end Sm83Asm
