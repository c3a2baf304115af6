import Mathlib
import Sm83Asm.Proofs.Line.Grammar
import Sm83Asm.Proofs.Run.Conditional
import Sm83Asm.Proofs.Token.Covering

set_option autoImplicit false

/-!
# Lines that are read as they are written

A line in which nothing can be replaced has the same tokens after replacing as before. That is so
for lines of keywords and of names that are no string equates, with blanks between them and a
comment behind them.

Main statement: such a line that begins with a keyword and has at most one name behind it is parsed
to that keyword with that argument, and nothing is reported (`read_of_words`).
-/

namespace Sm83Asm

/-- Whether a token is neither a blank nor a comment. -/
def isWordToken (t : Token) : Bool := t.kind != .space && t.kind != .comment

/-- The tokens of a line as it is written, with their classes, between the marks at both ends and
without blanks and comments. -/
def State.words (st : State) (line : Nat) (text : String) : List (TokenKind × String) :=
  ((st.rawTokens line text.toList).tail.dropLast.filter isWordToken).map fun t => (t.kind, t.text)

/-- Whether a token stands for nothing but itself: a blank, a comment, a keyword or a name that is
no string equate. -/
def State.isLiteral (st : State) (t : Token) : Bool :=
  match t.kind with
  | .space | .comment | .keyword => true
  | .identifier => !st.strings.contains t.text
  | _ => false

/-! ## Words -/

theorem State.exists_words_eq (st : State) (line : Nat) (text : String) :
    ∃ inner, List.Forall₂ Token.Retagged
        ((piecesFrom line st.cursor text.toList).map Piece.token) inner ∧
      st.rawTokens line text.toList = .start line :: inner ++ [Token.lineEnd line text.toList] ∧
      st.words line text = (inner.filter isWordToken).map fun t => (t.kind, t.text) := by
  obtain ⟨inner, hr, hraw⟩ := exists_classify_between line
    ((piecesFrom line st.cursor text.toList).map Piece.token) text.toList
  have hraw' : st.rawTokens line text.toList =
      .start line :: inner ++ [Token.lineEnd line text.toList] := hraw
  refine ⟨inner, hr, hraw', ?_⟩
  rw [State.words, hraw', List.cons_append, List.tail_cons, List.dropLast_concat]

/-- The keyword that a word of a line spells, if it is one of some keywords. -/
def keywordAmong? (keywords : List Keyword) (w : TokenKind × String) : Option Keyword :=
  if w.1 == .keyword then (Keyword.ofWord? w.2).filter keywords.contains else none

theorem findKeyword?_eq_findSome? (keywords : List Keyword) (ts : List Token) :
    (findKeyword? keywords ts).map Prod.fst =
      ((ts.filter isWordToken).map fun t => (t.kind, t.text)).findSome?
        (keywordAmong? keywords) := by
  have hword : ∀ t : Token, Option.map Prod.fst (if t.kind == .keyword then
      (Keyword.ofWord? t.text).bind fun keyword =>
        if keywords.contains keyword then some (keyword, t) else none else none) =
      keywordAmong? keywords (t.kind, t.text) := by
    intro t
    unfold keywordAmong?
    split
    · cases Keyword.ofWord? t.text with
      | none => rfl
      | some keyword =>
        rw [Option.bind_some, Option.filter_some]
        split
        · rfl
        · rfl
    · rfl
  rw [findKeyword?, List.map_findSome?, List.findSome?_map]
  induction ts with
  | nil => rfl
  | cons t ts ih =>
    rw [List.findSome?_cons, Function.comp_apply, hword, ih, List.filter_cons]
    by_cases ht : isWordToken t = true
    · rw [if_pos ht, List.findSome?_cons]
      rfl
    · have hnone : keywordAmong? keywords (t.kind, t.text) = none := by
        have hk : ¬ t.kind = .keyword := by
          intro hk
          exact ht (by rw [isWordToken, hk]; rfl)
        simp [keywordAmong?, hk]
      rw [if_neg ht, hnone]

/-- The first of some keywords in a line as it is written is one of its words. -/
theorem State.writtenKeyword?_eq_findSome? (st : State) (keywords : List Keyword) (line : Nat)
    (text : String) :
    st.writtenKeyword? keywords line text =
      (st.words line text).findSome? (keywordAmong? keywords) := by
  obtain ⟨inner, -, hraw, hwords⟩ := st.exists_words_eq line text
  have hends : findKeyword? keywords (.start line :: inner ++ [Token.lineEnd line text.toList]) =
      findKeyword? keywords inner := by
    simp [findKeyword?, List.findSome?_append, Token.start, Token.lineEnd]
  rw [State.writtenKeyword?, hraw, hwords, hends, findKeyword?_eq_findSome?]

/-! ## Matches -/

/-- Only strings and interpolations hold further matches, and comments have one rule. -/
theorem cases_of_mem_candidates {ctx : ScanContext} {pos : Nat} {cs : List Char} {m : Match}
    (h : some m ∈ candidates ctx pos cs) :
    m.kind = .string ∨ m.kind = .interpolation ∨
      m.subs = [] ∧ (m.kind = .comment → m.length = commentLength cs) := by
  have hrule : ∀ {kind n}, ofLength kind n = some m → kind ≠ .comment →
      m.subs = [] ∧ (m.kind = .comment → m.length = commentLength cs) := by
    intro kind n hm hk
    obtain ⟨-, rfl⟩ := ofLength_eq_some hm
    exact ⟨rfl, fun h => absurd h hk⟩
  simp only [candidates, List.mem_cons, List.not_mem_nil, or_false] at h
  rcases h with h | h | h | h | h | h | h | h | h | h | h | h | h | h | h | h | h | h | h
  case inr.inl =>
    obtain ⟨-, rfl⟩ := ofLength_eq_some h.symm
    exact .inr (.inr ⟨rfl, fun _ => rfl⟩)
  case inr.inr.inr.inl => exact .inl (kind_delimited h.symm)
  case inr.inr.inr.inr.inl => exact .inr (.inl (kind_delimited h.symm))
  all_goals exact .inr (.inr (hrule h.symm (by decide)))

theorem Cursor.matchAt_cases (cur : Cursor) (cs : List Char) :
    (cur.matchAt cs).kind = .string ∨ (cur.matchAt cs).kind = .interpolation ∨
      (cur.matchAt cs).subs = [] ∧
        ((cur.matchAt cs).kind = .comment → (cur.matchAt cs).length = commentLength cs) := by
  unfold Cursor.matchAt
  cases h : scanTop cur.context cur.pos cs with
  | some m => exact cases_of_mem_candidates (mem_candidates_of_scanTop h)
  | none => exact .inr (.inr ⟨rfl, fun hk => absurd hk (by decide)⟩)

/-- A comment takes the rest of the line. -/
theorem Cursor.drop_comment (cur : Cursor) (c : Char) (rest : List Char)
    (h : (cur.matchAt (c :: rest)).kind = .comment) :
    rest.drop ((cur.matchAt (c :: rest)).length - 1) = [] := by
  have hpos := (cur.fits_matchAt (List.cons_ne_nil c rest)).whole.pos
  rcases cur.matchAt_cases (c :: rest) with hs | hi | ⟨-, hlength⟩
  · exact absurd (hs.symm.trans h) (by simp)
  · exact absurd (hi.symm.trans h) (by simp)
  · rw [hlength h] at hpos ⊢
    unfold commentLength at hpos ⊢
    split at hpos
    · rename_i heq
      obtain ⟨-, rfl⟩ := List.cons.inj heq
      simp
    · exact absurd hpos (by simp)

namespace State

variable {st : State}

theorem isLiteral_cases {t : Token} (h : st.isLiteral t = true) :
    t.kind = .space ∨ t.kind = .comment ∨ t.kind = .keyword ∨
      t.kind = .identifier ∧ st.strings.get? t.text = none := by
  unfold isLiteral at h
  split at h
  · rename_i hk
    exact .inl hk
  · rename_i hk
    exact .inr (.inl hk)
  · rename_i hk
    exact .inr (.inr (.inl hk))
  · rename_i hk
    exact .inr (.inr (.inr ⟨hk, by simpa [Table.contains] using h⟩))
  · exact absurd h (by simp)

theorem substitution_of_isLiteral {t : Token} (h : st.isLiteral t = true) (seen : List Token) :
    st.substitution seen t.kind t.text.toList = none := by
  rcases isLiteral_cases h with hk | hk | hk | ⟨hk, hs⟩
  · rw [hk]
    rfl
  · rw [hk]
    rfl
  · rw [hk]
    rfl
  · rw [hk, substitution, String.ofList_toList, hs]

/-- A literal token holds one match, which has no replacement. -/
theorem substitution_of_mem_matched (cur : Cursor) (line : Nat) {front cs : List Char}
    (hpos : cur.pos = front.length)
    (h : st.isLiteral (cur.piece line (cur.matchAt cs) cs).token = true) (seen : List Token) :
    ∀ m ∈ (cur.piece line (cur.matchAt cs) cs).matched,
      st.substitution seen m.kind (m.slice (front ++ cs)) = none := by
  intro m hm
  have hkind : (cur.piece line (cur.matchAt cs) cs).token.kind = (cur.matchAt cs).kind := rfl
  rcases cur.matchAt_cases cs with hk | hk | ⟨hsubs, -⟩
  · have hcases := isLiteral_cases h
    rw [hkind, hk] at hcases
    exact absurd hcases (by simp)
  · have hcases := isLiteral_cases h
    rw [hkind, hk] at hcases
    exact absurd hcases (by simp)
  · have hnone := substitution_of_isLiteral h seen
    simp only [Cursor.piece, hsubs, List.nil_append, List.mem_singleton] at hm hnone
    rw [String.toList_ofList] at hnone
    subst hm
    rw [SubMatch.slice, hpos, List.drop_left]
    exact hnone

/-! ## Nothing is replaced -/

theorem expandIn?_eq_none {whole : List Char} {seen : List Token} {matched : List SubMatch}
    (h : ∀ m ∈ matched, st.substitution seen m.kind (m.slice whole) = none) :
    st.expandIn? whole seen matched = none := by
  apply List.findSome?_eq_none_iff.2
  intro m hm
  rw [h m hm]

theorem failuresIn_eq_nil {line : Nat} {whole : List Char} {seen : List Token}
    {matched : List SubMatch}
    (h : ∀ m ∈ matched, st.substitution seen m.kind (m.slice whole) = none) :
    st.failuresIn line whole seen matched = [] := by
  apply List.filterMap_eq_nil_iff.2
  intro m hm
  simp only [h m hm]

/-- Where every match stands for itself, nothing is replaced and nothing fails. -/
theorem expandFrom?_eq_none (line : Nat) (whole : List Char) (cur : Cursor) (cs : List Char)
    (seen : List Token)
    (h : ∀ p ∈ piecesFrom line cur cs, ∀ m ∈ p.matched, ∀ seen,
      st.substitution seen m.kind (m.slice whole) = none) :
    st.expandFrom? line whole seen cur cs = none ∧
      st.failuresFrom line whole seen (piecesFrom line cur cs) = [] := by
  fun_induction piecesFrom line cur cs generalizing seen with
  | case1 cur =>
    rw [expandFrom?]
    exact ⟨rfl, rfl⟩
  | case2 cur c rest m ih =>
    rw [List.forall_mem_cons] at h
    have hnone : ∀ s ∈ (cur.piece line m (c :: rest)).matched,
        st.substitution seen s.kind (s.slice whole) = none := fun s hs => h.1 s hs seen
    have hnext := ih ((cur.piece line m (c :: rest)).token :: seen) h.2
    constructor
    · rw [expandFrom?, expandIn?_eq_none hnone]
      exact hnext.1
    · rw [failuresFrom, failuresIn_eq_nil hnone, List.nil_append]
      exact hnext.2

/-- A line in which every match stands for itself has the tokens that it is written with. -/
theorem tokenize_eq_rawTokens {line : Nat} {cs : List Char}
    (h : ∀ p ∈ piecesFrom line st.cursor cs, ∀ m ∈ p.matched, ∀ seen,
      st.substitution seen m.kind (m.slice cs) = none) :
    st.tokenize line cs = (st.rawTokens line cs, []) := by
  obtain ⟨hexpand, hfail⟩ := expandFrom?_eq_none line cs st.cursor cs [.start line] h
  unfold State.tokenize
  cases st.config.maxSubstitutions with
  | zero => rfl
  | succ limit =>
    have hlex : st.lex line true cs = .final (st.rawTokens line cs) [] := by
      rw [lex, if_pos rfl, hexpand]
      dsimp only
      rw [hfail]
      rfl
    dsimp only [tokensWithin]
    rw [hlex]

/-- The matches in a row of literal tokens stand for themselves. -/
theorem substitution_of_mem_piecesFrom (line : Nat) (cur : Cursor) (front cs : List Char)
    (hpos : cur.pos = front.length)
    (h : ∀ p ∈ piecesFrom line cur cs, st.isLiteral p.token = true) :
    ∀ p ∈ piecesFrom line cur cs, ∀ m ∈ p.matched, ∀ seen,
      st.substitution seen m.kind (m.slice (front ++ cs)) = none := by
  fun_induction piecesFrom line cur cs generalizing front with
  | case1 cur => simp
  | case2 cur c rest m ih =>
    rw [List.forall_mem_cons] at h ⊢
    have hcut := (cur.fits_matchAt (List.cons_ne_nil c rest)).whole
    have hdrop : rest.drop (m.length - 1) = (c :: rest).drop m.length := by
      rw [← Nat.succ_pred_eq_of_pos hcut.pos]
      rfl
    have hwhole : front ++ c :: rest =
        (front ++ (c :: rest).take m.length) ++ rest.drop (m.length - 1) := by
      rw [hdrop, List.append_assoc, List.take_append_drop]
    have hbehind :
        (cur.advance m (c :: rest)).pos = (front ++ (c :: rest).take m.length).length := by
      rw [List.length_append, List.length_take_of_le hcut.le, ← hpos]
      rfl
    constructor
    · exact fun s hs seen => substitution_of_mem_matched cur line hpos h.1 seen s hs
    · rw [hwhole]
      exact ih (front ++ (c :: rest).take m.length) hbehind h.2

/-! ## What the parser sees -/

theorem isWordToken_of_isLiteral {t : Token} (h : st.isLiteral t = true) (hc : t.kind ≠ .comment) :
    isWordToken t = !t.kind.isTrivia := by
  rcases isLiteral_cases h with hk | hk | hk | ⟨hk, -⟩
  · rw [isWordToken, hk]
    rfl
  · exact absurd hk hc
  · rw [isWordToken, hk]
    rfl
  · rw [isWordToken, hk]
    rfl

/-- The parser sees the words of a line, and a comment at the end if there is one. -/
theorem exists_comment (line : Nat) (cur : Cursor) (cs : List Char)
    (h : ∀ p ∈ piecesFrom line cur cs, st.isLiteral p.token = true) :
    ∃ comment : Option Token, (∀ t ∈ comment, t.kind = .comment) ∧
      ((piecesFrom line cur cs).map Piece.token).filter (fun t => !t.kind.isTrivia) =
        ((piecesFrom line cur cs).map Piece.token).filter isWordToken ++ comment.toList := by
  fun_induction piecesFrom line cur cs with
  | case1 cur => exact ⟨none, by simp, rfl⟩
  | case2 cur c rest m ih =>
    rw [List.forall_mem_cons] at h
    rw [List.map_cons]
    by_cases hk : (cur.piece line m (c :: rest)).token.kind = .comment
    · rw [cur.drop_comment c rest hk, piecesFrom, List.map_nil]
      refine ⟨some (cur.piece line m (c :: rest)).token, by simpa using hk, ?_⟩
      rw [List.filter_cons_of_pos (by rw [hk]; rfl),
        List.filter_cons_of_neg (by rw [isWordToken, hk]; simp)]
      rfl
    · obtain ⟨comment, hcomment, hrest⟩ := ih h.2
      refine ⟨comment, hcomment, ?_⟩
      rw [List.filter_cons, List.filter_cons, isWordToken_of_isLiteral h.1 hk, hrest]
      split
      · rfl
      · rfl

/-- A line of words that stand for themselves, where `inner` are its tokens between both ends. -/
structure Literal (st : State) (line : Nat) (text : String) (inner : List Token) : Prop where
  raw : st.rawTokens line text.toList =
    .start line :: inner ++ [Token.lineEnd line text.toList]
  pieces : inner = (piecesFrom line st.cursor text.toList).map Piece.token
  literal : ∀ t ∈ inner, st.isLiteral t = true

theorem eq_of_retagged {ts ts' : List Token} (h : List.Forall₂ Token.Retagged ts ts')
    (hlit : ∀ t ∈ ts', st.isLiteral t = true) : ts' = ts := by
  induction h with
  | nil => rfl
  | cons ht _ ih =>
    rw [List.forall_mem_cons] at hlit
    rw [ih hlit.2]
    rcases ht with rfl | ⟨-, kind, rfl | rfl, rfl⟩
    · rfl
    · exact absurd hlit.1 (by simp [isLiteral])
    · exact absurd hlit.1 (by simp [isLiteral])

theorem exists_literal {line : Nat} {text : String}
    (h : ∀ w ∈ st.words line text,
      w.1 = .keyword ∨ w.1 = .identifier ∧ st.strings.contains w.2 = false) :
    ∃ inner, st.Literal line text inner ∧
      st.words line text = (inner.filter isWordToken).map fun t => (t.kind, t.text) := by
  obtain ⟨inner, hr, hraw, hwords⟩ := st.exists_words_eq line text
  have hlit : ∀ t ∈ inner, st.isLiteral t = true := by
    intro t ht
    by_cases hw : isWordToken t = true
    · have hmem : (t.kind, t.text) ∈ st.words line text := by
        rw [hwords]
        exact List.mem_map_of_mem (List.mem_filter.2 ⟨ht, hw⟩)
      rcases h _ hmem with hk | ⟨hk, hs⟩
      · simp [isLiteral, show t.kind = .keyword from hk]
      · simp [isLiteral, show t.kind = .identifier from hk, hs]
    · have hk : t.kind = .space ∨ t.kind = .comment := by
        simpa [isWordToken, or_iff_not_imp_left] using hw
      rcases hk with hk | hk
      · simp [isLiteral, hk]
      · simp [isLiteral, hk]
  exact ⟨inner, ⟨hraw, eq_of_retagged hr hlit, hlit⟩, hwords⟩

/-- Nothing is replaced in a literal line. -/
theorem Literal.tokenize {line : Nat} {text : String} {inner : List Token}
    (h : st.Literal line text inner) :
    st.tokenize line text.toList = (st.rawTokens line text.toList, []) := by
  have hpieces : ∀ p ∈ piecesFrom line st.cursor text.toList, st.isLiteral p.token = true := by
    intro p hp
    apply h.literal
    rw [h.pieces]
    exact List.mem_map_of_mem hp
  exact tokenize_eq_rawTokens
    (substitution_of_mem_piecesFrom line st.cursor [] text.toList rfl hpieces)

end State

/-! ## Parsing -/

namespace Parser

theorem expressionList_nil {eol t : Token} (ht : endsArguments t = true) (ts : List Token) :
    expressionList eol (t :: ts) = .ok ([], t :: ts) := by
  rw [expressionList, if_pos (show endsArguments (peek eol (t :: ts)) = true from ht)]

/-- An operand in front of the end of the arguments is the only argument. -/
theorem expressionList_operand {eol operand t : Token} {e : Expr} {ts : List Token}
    (hread : readOperand eol (operand :: t :: ts) = .ok (e, t :: ts))
    (hoperand : endsArguments operand = false) (ht : endsArguments t = true) :
    expressionList eol (operand :: t :: ts) = .ok ([e], t :: ts) := by
  have hk : t.kind = .comment ∨ t.kind = .endOfLine := by simpa [endsArguments] using ht
  have hends : ¬ endsArguments (peek eol (operand :: t :: ts)) = true := by
    rw [peek, List.headD_cons, hoperand]
    exact Bool.false_ne_true
  have hprec : infixPrecedence t = 0 := by
    rcases hk with hk | hk
    · simp [infixPrecedence, hk]
    · simp [infixPrecedence, hk]
  have hcomma : (t.kind == .comma) = false := by
    rcases hk with hk | hk
    · simp [hk]
    · simp [hk]
  have hwhole : readExpression eol 0 (operand :: t :: ts) = .ok (e, t :: ts) := by
    rw [readExpression_eq, hread]
    show readAttached eol 0 e (t :: ts) = _
    rw [readAttached_cons, hprec, if_pos (Nat.le_refl 0)]
  rw [expressionList, if_neg hends]
  show readSequence eol (operand :: t :: ts) = _
  rw [readSequence_eq, hwhole]
  simp [Except.bind, hcomma]

theorem expressionList_name {eol name t : Token} (hname : name.kind = .identifier)
    (ht : endsArguments t = true) (ts : List Token) :
    expressionList eol (name :: t :: ts) = .ok ([.identifier name], t :: ts) := by
  apply expressionList_operand _ (by simp [endsArguments, hname]) ht
  rw [readOperand_cons, hname]

end Parser

theorem upper_lower (s : String) : Text.upper (Text.lower s) = Text.upper s := by
  simp only [Text.lower, Text.upper, String.toList_ofList, List.map_map, Function.comp_def,
    Char.toUpper_toLower_eq_toUpper]

/-- Words that are the same up to their case spell the same keyword. -/
theorem ofWord?_of_isWord {t : Token} {word : String} (h : t.isWord word = true) :
    Keyword.ofWord? t.text = Keyword.ofWord? word := by
  have hlower : Text.lower t.text = Text.lower word := beq_iff_eq.1 h
  unfold Keyword.ofWord?
  rw [← upper_lower t.text, hlower, upper_lower]

theorem isInstruction_eq_false {word : Token} {keyword : Keyword}
    (hk : Keyword.ofWord? word.text = some keyword) (hset : keyword ≠ .set) (hrl : keyword ≠ .rl) :
    Parser.isInstruction none word = false := by
  have hnot : ∀ name other, Keyword.ofWord? name = some other → keyword ≠ other →
      word.isWord name = false := by
    intro name other hother hne
    rw [Bool.eq_false_iff]
    intro hword
    rw [ofWord?_of_isWord hword, hother, Option.some.injEq] at hk
    exact hne hk.symm
  simp [Parser.isInstruction, hnot "SET" .set (by decide +kernel) hset,
    hnot "RL" .rl (by decide +kernel) hrl]

/-- The end of a line, with a comment in front of it if there is one. -/
theorem exists_lineEnd {eol : Token} (heol : eol.kind = .endOfLine) {comment : Option Token}
    (hcomment : ∀ t ∈ comment, t.kind = .comment) :
    (∃ t ts, comment.toList ++ [eol] = t :: ts ∧ Parser.endsArguments t = true) ∧
      Parser.commentPart (comment.toList ++ [eol]) = (comment, [eol]) := by
  cases comment with
  | none => exact ⟨⟨eol, [], rfl, by simp [Parser.endsArguments, heol]⟩,
      by simp [Parser.commentPart, heol]⟩
  | some t =>
    have ht := hcomment t rfl
    exact ⟨⟨t, [eol], rfl, by simp [Parser.endsArguments, ht]⟩, by simp [Parser.commentPart, ht]⟩

/-- A keyword whose arguments end where the line does is parsed to that keyword with these
arguments. -/
theorem line_of_expressionList {eol start word : Token} {operands : List Token} {args : List Expr}
    {comment : Option Token} {keyword : Keyword} (hstart : start.kind = .startOfLine)
    (heol : eol.kind = .endOfLine) (hword : word.kind = .keyword)
    (hk : Keyword.ofWord? word.text = some keyword) (hraw : keyword.takesRawText = false)
    (hset : keyword ≠ .set) (hrl : keyword ≠ .rl) (hcomment : ∀ t ∈ comment, t.kind = .comment)
    (hargs : Parser.expressionList eol (operands ++ (comment.toList ++ [eol])) =
      .ok (args, comment.toList ++ [eol])) :
    Parser.line eol (start :: word :: (operands ++ (comment.toList ++ [eol]))) =
      .ok { start, operation := some (.keyword word args), comment } := by
  obtain ⟨-, hpart⟩ := exists_lineEnd heol hcomment
  have hop : Parser.operationPart eol none (word :: (operands ++ (comment.toList ++ [eol]))) =
      .ok (some (.keyword word args), comment.toList ++ [eol]) := by
    simp only [Parser.operationPart, hword, isInstruction_eq_false hk hset hrl, hk, hraw,
      Option.any_some, Bool.false_eq_true, if_false, hargs]
    rfl
  have hlabel : Parser.labelPart (word :: (operands ++ (comment.toList ++ [eol]))) =
      (none, word :: (operands ++ (comment.toList ++ [eol]))) := by
    simp [Parser.labelPart, hword]
  simp [Parser.line, Parser.expect, hstart, hlabel, hop, hpart, heol, bind, Except.bind]

/-- The tokens of a keyword, of at most one name and of a comment are parsed to that keyword with
that argument. -/
theorem line_keyword {eol start word : Token} {names : List Token} {comment : Option Token}
    {keyword : Keyword} (hstart : start.kind = .startOfLine) (heol : eol.kind = .endOfLine)
    (hword : word.kind = .keyword) (hk : Keyword.ofWord? word.text = some keyword)
    (hraw : keyword.takesRawText = false) (hset : keyword ≠ .set) (hrl : keyword ≠ .rl)
    (hnames : ∀ t ∈ names, t.kind = .identifier) (hone : names.length ≤ 1)
    (hcomment : ∀ t ∈ comment, t.kind = .comment) :
    Parser.line eol (start :: word :: (names ++ (comment.toList ++ [eol]))) =
      .ok { start, operation := some (.keyword word (names.map .identifier)), comment } := by
  obtain ⟨⟨t, ts, htail, ht⟩, -⟩ := exists_lineEnd heol hcomment
  apply line_of_expressionList hstart heol hword hk hraw hset hrl hcomment
  rw [htail]
  match names, hone with
  | [], _ => exact Parser.expressionList_nil ht ts
  | [name], _ => exact Parser.expressionList_name (hnames name List.mem_cons_self) ht ts

/-- The tokens of a literal line are parsed to its keyword, with the names behind it. -/
theorem State.Literal.parseLine {st : State} {line : Nat} {text : String} {inner : List Token}
    (h : st.Literal line text inner) {word : Token} {names : List Token} {keyword : Keyword}
    (hwords : inner.filter isWordToken = word :: names) (hword : word.kind = .keyword)
    (hk : Keyword.ofWord? word.text = some keyword) (hraw : keyword.takesRawText = false)
    (hset : keyword ≠ .set) (hrl : keyword ≠ .rl) (hnames : ∀ t ∈ names, t.kind = .identifier)
    (hone : names.length ≤ 1) :
    ∃ comment, Sm83Asm.parseLine (st.rawTokens line text.toList) =
      (.line ⟨.start line, none, some (.keyword word (names.map .identifier)), comment⟩, []) := by
  obtain ⟨comment, hcomment, hseen⟩ := exists_comment line st.cursor text.toList fun p hp =>
    h.literal p.token (h.pieces ▸ List.mem_map_of_mem hp)
  rw [← h.pieces, hwords] at hseen
  have hfilter : (st.rawTokens line text.toList).filter (fun t => !t.kind.isTrivia) =
      .start line :: word :: (names ++ (comment.toList ++ [Token.lineEnd line text.toList])) := by
    rw [h.raw, List.filter_append, List.filter_cons_of_pos rfl, hseen,
      List.filter_cons_of_pos rfl]
    simp
  have hend : Parser.endToken (st.rawTokens line text.toList) =
      Token.lineEnd line text.toList := by
    rw [h.raw, Parser.endToken, List.getLast?_concat]
    rfl
  refine ⟨comment, ?_⟩
  unfold Sm83Asm.parseLine
  dsimp only
  rw [hend, hfilter, line_keyword rfl rfl hword hk hraw hset hrl hnames hone hcomment]

/-- A line that is written as a keyword with at most one name behind it, which is no string equate,
is read as such, without any report. -/
theorem State.read_of_words {st : State} {line : Nat} {text word : String} {names : List String}
    {keyword : Keyword}
    (hwords : st.words line text = (.keyword, word) :: names.map fun name => (.identifier, name))
    (hk : Keyword.ofWord? word = some keyword) (hraw : keyword.takesRawText = false)
    (hset : keyword ≠ .set) (hrl : keyword ≠ .rl) (hone : names.length ≤ 1)
    (hnames : ∀ name ∈ names, st.strings.contains name = false) :
    ∃ (parsed : Line) (t : Token) (ts : List Token), parsed.label = none ∧
      parsed.operation = some (.keyword t (ts.map .identifier)) ∧ t.text = word ∧
      ts.map Token.text = names ∧ st.read line text = (.line parsed, st) := by
  have hliteral : ∀ w ∈ st.words line text,
      w.1 = .keyword ∨ w.1 = .identifier ∧ st.strings.contains w.2 = false := by
    rw [hwords, List.forall_mem_cons]
    refine ⟨.inl rfl, ?_⟩
    intro w hw
    obtain ⟨name, hname, rfl⟩ := List.mem_map.1 hw
    exact .inr ⟨rfl, hnames name hname⟩
  obtain ⟨inner, hinner, hsame⟩ := exists_literal hliteral
  rw [hwords] at hsame
  obtain ⟨t, ts, hfilter, ht, hts⟩ := List.map_eq_cons_iff.1 hsame.symm
  obtain ⟨htk, rfl⟩ := Prod.mk.inj ht
  have htexts : ts.map Token.text = names := by
    have hsnd := congrArg (List.map Prod.snd) hts
    rw [List.map_map, List.map_map] at hsnd
    exact hsnd.trans (List.map_id' names)
  have hkinds : ∀ u ∈ ts, u.kind = .identifier := by
    intro u hu
    have hmem : (u.kind, u.text) ∈ ts.map fun t => (t.kind, t.text) := List.mem_map_of_mem hu
    rw [hts] at hmem
    obtain ⟨name, -, heq⟩ := List.mem_map.1 hmem
    exact (Prod.mk.inj heq).1.symm
  have hone' : ts.length ≤ 1 := by
    rw [← htexts, List.length_map] at hone
    exact hone
  obtain ⟨comment, hparse⟩ := hinner.parseLine hfilter htk hk hraw hset hrl hkinds hone'
  refine ⟨⟨.start line, none, some (.keyword t (ts.map .identifier)), comment⟩, t, ts, rfl, rfl,
    rfl, htexts, ?_⟩
  rw [read, hinner.tokenize]
  dsimp only
  rw [hparse]
  simp [State.record]

end Sm83Asm
