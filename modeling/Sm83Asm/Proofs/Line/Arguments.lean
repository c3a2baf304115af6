import Sm83Asm.Proofs.Line.Columns
import Sm83Asm.Proofs.Line.Written

set_option autoImplicit false

/-!
# Arguments of macro calls

The arguments of a macro call are kept as text, since only the body of the macro says what they are.
They are cut at the commas outside of brackets. Brackets need not match: one that closes nothing
does not count, and one that is never closed hides all commas behind it.

Main statements: `bracketDepth_le_iff` tells what the depth counts, and
`macroCall_arguments_lossless` how the arguments are made from the tokens behind the name.
-/

namespace Sm83Asm

namespace Parser

/-! ## Brackets -/

/-- Bracket depth behind some tokens. -/
def bracketDepth (ts : List Token) : Nat := ts.foldl depthAfter 0

def opensBracket (t : Token) : Bool := t.kind == .openParen || t.kind == .openBracket

def closesBracket (t : Token) : Bool := t.kind == .closeParen || t.kind == .closeBracket

theorem depthAfter_le_iff (depth n : Nat) (t : Token) :
    depthAfter depth t ≤ n ↔
      depth + (if opensBracket t then 1 else 0) ≤ n + (if closesBracket t then 1 else 0) := by
  unfold depthAfter opensBracket closesBracket
  cases t.kind <;> simp

/-- At most `n` brackets are open behind some tokens exactly when no tail of them opens more than `n`
brackets beyond those that it closes. A bracket that closes nothing is not counted, because a tail
can begin behind it. -/
theorem bracketDepth_le_iff (ts : List Token) (n : Nat) :
    bracketDepth ts ≤ n ↔
      ∀ back, back <:+ ts → back.countP opensBracket ≤ back.countP closesBracket + n := by
  induction ts using List.reverseRecOn generalizing n with
  | nil => simp [bracketDepth]
  | append_singleton ts t ih =>
    have hdepth : bracketDepth (ts ++ [t]) = depthAfter (bracketDepth ts) t :=
      List.foldl_concat _ _ _ _
    rw [hdepth, depthAfter_le_iff]
    constructor
    · intro h back hback
      rcases List.suffix_concat_iff.1 hback with rfl | ⟨front, rfl, hfront⟩
      · exact Nat.zero_le _
      · have hle := (ih _).1 (Nat.le_refl _) front hfront
        rw [List.countP_append, List.countP_append, List.countP_singleton, List.countP_singleton]
        omega
    · intro h
      have hlast : ∀ front, front <:+ ts →
          front.countP opensBracket + (if opensBracket t then 1 else 0) ≤
            front.countP closesBracket + (if closesBracket t then 1 else 0) + n := by
        intro front hfront
        have hback := h (front ++ [t]) (List.suffix_concat_iff.2 (.inr ⟨front, rfl, hfront⟩))
        rwa [List.countP_append, List.countP_append, List.countP_singleton,
          List.countP_singleton] at hback
      have hnil := hlast [] List.nil_suffix
      rw [List.countP_nil, List.countP_nil] at hnil
      -- Without the last token there may be one bracket more or less.
      have hle := (ih (n + (if closesBracket t then 1 else 0) -
        (if opensBracket t then 1 else 0))).2 fun front hfront => by
          have hfront := hlast front hfront
          omega
      omega

/-! ## Cutting at commas -/

/-- Number of commas outside of brackets behind a bracket depth. -/
def outerCommas (depth : Nat) : List Token → Nat
  | [] => 0
  | t :: ts =>
    (if t.kind = .comma ∧ depth = 0 then 1 else 0) + outerCommas (depthAfter depth t) ts

/-- Some tokens are cut at the commas outside of brackets. None of these commas is left in a piece,
and each piece counts its brackets from zero. -/
inductive CutAtCommas : List Token → List (List Token) → Prop
  | last {piece : List Token} (hpiece : outerCommas 0 piece = 0) : CutAtCommas piece [piece]
  | cons {piece rest : List Token} {comma : Token} {pieces : List (List Token)}
      (hpiece : outerCommas 0 piece = 0) (hcomma : comma.kind = .comma)
      (hdepth : bracketDepth piece = 0) (hrest : CutAtCommas rest pieces) :
      CutAtCommas (piece ++ comma :: rest) (piece :: pieces)

/-- The texts of some tokens, with one blank between two of them that leave a gap. -/
def spacedText : List Token → String
  | [] => ""
  | [t] => t.text
  | t :: u :: ts => t.text ++ (if t.finish < u.column then " " else "") ++ spacedText (u :: ts)

theorem outerCommas_append (depth : Nat) (front back : List Token) :
    outerCommas depth (front ++ back) =
      outerCommas depth front + outerCommas (front.foldl depthAfter depth) back := by
  induction front generalizing depth with
  | nil => simp [outerCommas]
  | cons t front ih =>
    rw [List.cons_append, outerCommas, outerCommas, ih, List.foldl_cons, Nat.add_assoc]

/-- There is one piece more than there are commas to cut at. -/
theorem CutAtCommas.length_eq {ts : List Token} {pieces : List (List Token)}
    (h : CutAtCommas ts pieces) : pieces.length = outerCommas 0 ts + 1 := by
  induction h with
  | last hpiece => rw [hpiece, List.length_singleton]
  | @cons piece rest comma pieces hpiece hcomma hdepth _ ih =>
    have hbehind : outerCommas 0 (comma :: rest) = 1 + outerCommas 0 rest := by
      simp [outerCommas, depthAfter, hcomma]
    -- The comma stands at depth zero, so counting from zero again changes nothing.
    rw [bracketDepth] at hdepth
    rw [List.length_cons, ih, outerCommas_append, hpiece, hdepth, hbehind]
    omega

/-- There is no comma outside of brackets, or there is a first one. -/
theorem eq_zero_or_exists_comma (depth : Nat) (ts : List Token) :
    outerCommas depth ts = 0 ∨ ∃ front comma back, ts = front ++ comma :: back ∧
      outerCommas depth front = 0 ∧ comma.kind = .comma ∧ front.foldl depthAfter depth = 0 := by
  induction ts generalizing depth with
  | nil => exact .inl rfl
  | cons t ts ih =>
    by_cases ht : t.kind = .comma ∧ depth = 0
    · exact .inr ⟨[], t, ts, rfl, rfl, ht.1, ht.2⟩
    · rcases ih (depthAfter depth t) with hnone | ⟨front, comma, back, rfl, hfront, hcomma, hdepth⟩
      · exact .inl (by rw [outerCommas, if_neg ht, hnone])
      · exact .inr ⟨t :: front, comma, back, rfl, by rw [outerCommas, if_neg ht, hfront], hcomma,
          hdepth⟩

/-! ## Reading arguments -/

theorem not_stop_of_outerCommas {depth : Nat} {t : Token} {ts : List Token}
    (hpiece : outerCommas depth (t :: ts) = 0) (hinner : endsArguments t = false) :
    ¬ (endsArguments t || (t.kind == .comma && depth == 0)) = true := by
  have hcomma : ¬ (t.kind = .comma ∧ depth = 0) := by
    intro h
    rw [outerCommas, if_pos h] at hpiece
    omega
  simpa [hinner] using hcomma

/-- An argument takes the tokens in front of a place where it ends. -/
theorem rawArgument_cons_append {depth : Nat} {t : Token} {ts rest : List Token}
    (hpiece : outerCommas depth (t :: ts) = 0) (hinner : ∀ u ∈ t :: ts, endsArguments u = false)
    (hrest : ∀ u ∈ rest.head?, endsArguments u = true ∨
      u.kind = .comma ∧ (t :: ts).foldl depthAfter depth = 0) (last : Option Nat) :
    rawArgument depth last (t :: (ts ++ rest)) =
      ((if last.any (· < t.column) then " " else "") ++ spacedText (t :: ts), rest) := by
  induction ts generalizing depth t last with
  | nil =>
    have hstop : rawArgument (depthAfter depth t) (some t.finish) rest = ("", rest) := by
      cases rest with
      | nil => rfl
      | cons u rest =>
        apply rawArgument_of_stop
        simpa using hrest u rfl
    rw [rawArgument_of_not_stop (not_stop_of_outerCommas hpiece (hinner t List.mem_cons_self)),
      List.nil_append, hstop, String.append_empty]
    rfl
  | cons u ts ih =>
    have hbehind : outerCommas (depthAfter depth t) (u :: ts) = 0 := by
      rw [outerCommas] at hpiece
      omega
    rw [rawArgument_of_not_stop (not_stop_of_outerCommas hpiece (hinner t List.mem_cons_self)),
      List.cons_append, ih hbehind (List.forall_mem_cons.1 hinner).2 hrest]
    simp [spacedText, String.append_assoc]

theorem rawArgument_append {piece rest : List Token} (hpiece : outerCommas 0 piece = 0)
    (hinner : ∀ u ∈ piece, endsArguments u = false)
    (hrest : ∀ u ∈ rest.head?, endsArguments u = true ∨ u.kind = .comma ∧ bracketDepth piece = 0) :
    rawArgument 0 none (piece ++ rest) = (spacedText piece, rest) := by
  cases piece with
  | nil =>
    cases rest with
    | nil => rfl
    | cons u rest =>
      apply rawArgument_of_stop
      simpa [bracketDepth] using hrest u rfl
  | cons t ts =>
    rw [List.cons_append, rawArgument_cons_append hpiece hinner hrest]
    simp

/-- One or more arguments take all tokens up to the end of the arguments, cut at the commas. -/
theorem exists_cut (eol : Token) {inner rest : List Token}
    (hinner : ∀ t ∈ inner, endsArguments t = false)
    (hrest : ∀ t ∈ rest.head?, endsArguments t = true) :
    ∃ pieces, CutAtCommas inner pieces ∧
      (rawSequence eol (inner ++ rest)).1.map Token.text = pieces.map spacedText ∧
      (rawSequence eol (inner ++ rest)).2 = rest := by
  rcases eq_zero_or_exists_comma 0 inner with
    hpiece | ⟨piece, comma, behind, hsplit, hpiece, hcomma, hdepth⟩
  · have harg := rawArgument_append hpiece hinner fun u hu => .inl (hrest u hu)
    have hlast : ∀ t ∈ rest.head?, t.kind ≠ .comma := by
      intro t ht hk
      exact absurd (hrest t ht) (by simp [endsArguments, hk])
    rw [rawSequence_of_last harg hlast]
    exact ⟨[inner], .last hpiece, rfl, rfl⟩
  · -- The first comma outside of brackets ends an argument; the others are read behind it.
    obtain ⟨hfront, -, hbehind⟩ : (∀ t ∈ piece, endsArguments t = false) ∧
        endsArguments comma = false ∧ ∀ t ∈ behind, endsArguments t = false := by
      simpa [hsplit, or_imp, forall_and] using hinner
    have hlt : behind.length < inner.length := by
      rw [hsplit, List.length_append, List.length_cons]
      omega
    have harg : rawArgument 0 none (piece ++ comma :: (behind ++ rest)) =
        (spacedText piece, comma :: (behind ++ rest)) := by
      apply rawArgument_append hpiece hfront
      intro u hu
      obtain rfl : comma = u := Option.some.inj hu
      exact .inr ⟨hcomma, hdepth⟩
    obtain ⟨pieces, hcut, htexts, hleft⟩ := exists_cut eol hbehind hrest
    rw [hsplit, List.append_assoc, List.cons_append, rawSequence_of_comma harg hcomma]
    exact ⟨piece :: pieces, .cons hpiece hcomma hdepth hcut, congrArg (spacedText piece :: ·) htexts,
      hleft⟩
termination_by inner.length

theorem exists_cut_of_rawList (eol : Token) {inner rest : List Token}
    (hinner : ∀ t ∈ inner, endsArguments t = false) {t : Token} {ts : List Token}
    (hrest : rest = t :: ts) (ht : endsArguments t = true) :
    (rawList eol (inner ++ rest)).2 = rest ∧
      (inner = [] ∧ (rawList eol (inner ++ rest)).1 = [] ∨
        inner ≠ [] ∧ ∃ pieces, CutAtCommas inner pieces ∧
          (rawList eol (inner ++ rest)).1.map Token.text = pieces.map spacedText) := by
  unfold rawList
  cases inner with
  | nil =>
    have hends : endsArguments (peek eol ([] ++ rest)) = true := by rw [hrest]; exact ht
    rw [if_pos hends]
    exact ⟨rfl, .inl ⟨rfl, rfl⟩⟩
  | cons u us =>
    have hends : ¬ endsArguments (peek eol (u :: us ++ rest)) = true := by
      rw [Bool.not_eq_true]
      exact hinner u List.mem_cons_self
    rw [if_neg hends]
    have hhead : ∀ v ∈ rest.head?, endsArguments v = true := by
      rw [hrest]
      simpa using ht
    obtain ⟨pieces, hcut, htexts, hleft⟩ := exists_cut eol hinner hhead
    exact ⟨hleft, .inr ⟨List.cons_ne_nil _ _, pieces, hcut, htexts⟩⟩

/-- A label is read in front of a token that cannot belong to it. -/
theorem labelPart_append {label : Option LabelDef} (hlabel : ∀ l ∈ label, l.IsSpelled) {t : Token}
    (hk : t.kind ≠ .label) (hcolon : t.kind ≠ .colon) (hdouble : t.kind ≠ .doubleColon)
    (ts : List Token) :
    labelPart (label.toList.flatMap LabelDef.tokens ++ t :: ts) = (label, t :: ts) := by
  cases label with
  | none => simp [labelPart, hk]
  | some l =>
    obtain ⟨name, mark⟩ := l
    obtain ⟨hname, hmark⟩ : name.kind = .label ∧
      ∀ t ∈ mark, t.kind = .colon ∨ t.kind = .doubleColon := hlabel _ rfl
    cases mark with
    | none => simp [labelPart, LabelDef.tokens, hname, hcolon, hdouble]
    | some mark => simp [labelPart, LabelDef.tokens, hname, hmark mark rfl]

/-- A macro call takes what `rawList` gives, and it is never refused. -/
theorem line_macroCall {eol start name stop : Token} {label : Option LabelDef}
    {comment : Option Token} {behind args : List Token} (hstart : start.kind = .startOfLine)
    (hlabel : ∀ l ∈ label, l.IsSpelled) (hname : name.kind = .macroCall)
    (hargs : rawList eol behind = (args, comment.toList ++ [stop]))
    (hcomment : ∀ t ∈ comment, t.kind = .comment) (hstop : stop.kind = .endOfLine) :
    line eol (start :: (label.toList.flatMap LabelDef.tokens ++ name :: behind)) =
      .ok { start, label, operation := some (.macroCall name args), comment } := by
  have hpart : labelPart (label.toList.flatMap LabelDef.tokens ++ name :: behind) =
      (label, name :: behind) :=
    labelPart_append hlabel (by simp [hname]) (by simp [hname]) (by simp [hname]) behind
  have hop : operationPart eol label (name :: behind) =
      .ok (some (.macroCall name args), comment.toList ++ [stop]) := by
    rw [operationPart, hname]
    dsimp only
    rw [hargs]
  obtain ⟨-, hend⟩ := exists_lineEnd hstop hcomment
  simp [line, expect, hstart, hpart, hop, hend, hstop, bind, Except.bind]

end Parser

/-! ## Ends of lines -/

theorem endsArguments_of_retagged {t t' : Token} (h : t.Retagged t') :
    Parser.endsArguments t' = Parser.endsArguments t := by
  rcases h with rfl | ⟨hsignificant, kind, hkind, rfl⟩
  · rfl
  · have hbefore : Parser.endsArguments t = false := by
      unfold isSignificant at hsignificant
      simp only [Bool.and_eq_true, bne_iff_ne] at hsignificant
      simp [Parser.endsArguments, hsignificant]
    rw [hbefore]
    rcases hkind with rfl | rfl
    · rfl
    · rfl

/-- Nothing stands behind a comment. -/
theorem pairwise_piecesFrom (line : Nat) (cur : Cursor) (cs : List Char) :
    ((piecesFrom line cur cs).map Piece.token).Pairwise
      fun t _ => Parser.endsArguments t = false := by
  fun_induction piecesFrom line cur cs with
  | case1 cur => exact .nil
  | case2 cur c rest m ih =>
    rw [List.map_cons]
    by_cases hk : m.kind = .comment
    · rw [cur.drop_comment c rest hk, piecesFrom]
      exact List.pairwise_singleton _ _
    · refine List.pairwise_cons.2 ⟨fun t _ => ?_, ih⟩
      have hend : m.kind ≠ .endOfLine := kind_matchAt_ne cur (c :: rest)
      simp [Parser.endsArguments, Cursor.piece, hk, hend]

theorem pairwise_of_retagged {ts ts' : List Token} (hr : List.Forall₂ Token.Retagged ts ts')
    (h : ts.Pairwise fun t _ => Parser.endsArguments t = false) :
    ts'.Pairwise fun t _ => Parser.endsArguments t = false := by
  -- What the tokens end is the same token by token, and the rest of them does not matter.
  have hsame : ts'.map Parser.endsArguments = ts.map Parser.endsArguments := by
    clear h
    induction hr with
    | nil => rfl
    | cons ht _ ih => rw [List.map_cons, List.map_cons, ih, endsArguments_of_retagged ht]
  have hends : (ts.map Parser.endsArguments).Pairwise fun ends _ => ends = false :=
    List.pairwise_map.2 h
  rw [← hsame] at hends
  exact List.pairwise_map.1 hends

/-- The tokens of a line between its start and its end, where a comment is the last one. -/
theorem State.exists_rawTokens_pairwise (st : State) (line : Nat) (cs : List Char) : ∃ inner,
    st.rawTokens line cs = .start line :: (inner ++ [Token.lineEnd line cs]) ∧
      (∀ t ∈ inner, t.kind ≠ .endOfLine) ∧
      inner.Pairwise fun t _ => Parser.endsArguments t = false := by
  obtain ⟨inner, hraw, -, hkind⟩ := st.exists_rawTokens line cs
  obtain ⟨inner', hr, hraw'⟩ :=
    exists_classify_between line ((piecesFrom line st.cursor cs).map Piece.token) cs
  obtain rfl : inner' = inner := by
    have htokens : Token.start line :: inner' ++ [Token.lineEnd line cs] =
        .start line :: (inner ++ [Token.lineEnd line cs]) := hraw'.symm.trans hraw
    simpa using htokens
  exact ⟨inner', hraw, hkind, pairwise_of_retagged hr (pairwise_piecesFrom line st.cursor cs)⟩

/-- Tokens of which only the last one can end arguments are followed by a comment or by nothing. -/
theorem exists_comment_of_pairwise {ts : List Token} (hkind : ∀ t ∈ ts, t.kind ≠ .endOfLine)
    (hends : ts.Pairwise fun t _ => Parser.endsArguments t = false) :
    ∃ (inner : List Token) (comment : Option Token), ts = inner ++ comment.toList ∧
      (∀ t ∈ inner, Parser.endsArguments t = false) ∧ ∀ t ∈ comment, t.kind = .comment := by
  rcases List.eq_nil_or_concat' ts with rfl | ⟨front, last, rfl⟩
  · exact ⟨[], none, rfl, by simp, by simp⟩
  · have hcross := (List.pairwise_append.1 hends).2.2
    have hfront : ∀ t ∈ front, Parser.endsArguments t = false :=
      fun t ht => hcross t ht last (List.mem_singleton_self last)
    by_cases hlast : last.kind = .comment
    · exact ⟨front, some last, rfl, hfront, by simpa using hlast⟩
    · have hend : last.kind ≠ .endOfLine := hkind last (by simp)
      refine ⟨front ++ [last], none, by simp, fun t ht => ?_, by simp⟩
      rcases List.mem_append.1 ht with ht | ht
      · exact hfront t ht
      · obtain rfl := List.mem_singleton.1 ht
        simp [Parser.endsArguments, hlast, hend]

/-- Behind a token of a line that is not its last one stand the tokens up to a comment or the end. -/
theorem exists_behind {line : Nat} {cs : List Char} {start name : Token}
    {whole front behind : List Token} (hkind : ∀ t ∈ whole, t.kind ≠ .endOfLine)
    (hends : whole.Pairwise fun t _ => Parser.endsArguments t = false)
    (hname : name.kind ≠ .endOfLine)
    (htokens : (Token.start line :: (whole ++ [Token.lineEnd line cs])).filter
      (fun t => !t.kind.isTrivia) = start :: (front ++ name :: behind)) :
    start = .start line ∧ ∃ (inner : List Token) (comment : Option Token),
      behind = inner ++ (comment.toList ++ [Token.lineEnd line cs]) ∧
      (∀ t ∈ inner, Parser.endsArguments t = false) ∧ ∀ t ∈ comment, t.kind = .comment := by
  have hseen : (Token.start line :: (whole ++ [Token.lineEnd line cs])).filter
      (fun t => !t.kind.isTrivia) =
        .start line :: (whole.filter (fun t => !t.kind.isTrivia) ++ [Token.lineEnd line cs]) := by
    simp [Token.start, Token.lineEnd, TokenKind.isTrivia]
  obtain ⟨hstart, hrest⟩ := List.cons.inj (hseen.symm.trans htokens)
  refine ⟨hstart.symm, ?_⟩
  rcases List.eq_nil_or_concat' behind with rfl | ⟨more, last, rfl⟩
  · obtain ⟨-, hlast⟩ := List.append_inj' hrest rfl
    obtain rfl := List.singleton_inj.1 hlast
    exact absurd rfl hname
  · have hsplit : whole.filter (fun t => !t.kind.isTrivia) ++ [Token.lineEnd line cs] =
        (front ++ name :: more) ++ [last] := by simpa using hrest
    obtain ⟨hwhole, hlast⟩ := List.append_inj' hsplit rfl
    obtain rfl := List.singleton_inj.1 hlast
    have hsub : more.Sublist whole := by
      have hmore : more.Sublist (front ++ name :: more) :=
        (List.sublist_cons_self name more).trans (List.sublist_append_right _ _)
      exact hmore.trans (hwhole ▸ List.filter_sublist)
    obtain ⟨inner, comment, rfl, hinner, hcomment⟩ :=
      exists_comment_of_pairwise (fun t ht => hkind t (hsub.mem ht)) (hends.sublist hsub)
    exact ⟨inner, comment, List.append_assoc _ _ _, hinner, hcomment⟩

/-! ## Macro calls -/

/-- The arguments of a macro call lose nothing. In the tokens of a line of text, whatever was
replaced in it, a macro call in the place of the operation is parsed without a report. Its arguments
are made from the tokens between its name and the comment or the end of the line: none from no
tokens, and otherwise those tokens cut at the commas outside of brackets, one argument more than
there are such commas, each with the texts of its tokens and with a blank where they leave a gap. -/
theorem State.macroCall_arguments_lossless (st : State) (line limit left : Nat) (cs : List Char)
    {start name : Token} {label : Option LabelDef} {behind : List Token}
    (hlabel : ∀ l ∈ label, l.IsSpelled) (hname : name.kind = .macroCall)
    (htokens : (st.tokensWithin line limit left cs).1.filter (fun t => !t.kind.isTrivia) =
      start :: (label.toList.flatMap LabelDef.tokens ++ name :: behind)) :
    ∃ (inner args : List Token) (comment : Option Token) (stop : Token),
      behind = inner ++ (comment.toList ++ [stop]) ∧
      (∀ t ∈ inner, t.kind ≠ .comment ∧ t.kind ≠ .endOfLine) ∧
      (∀ t ∈ comment, t.kind = .comment) ∧ stop.kind = .endOfLine ∧
      parseLine (st.tokensWithin line limit left cs).1 =
        (.line { start, label, operation := some (.macroCall name args), comment }, []) ∧
      (inner = [] ∧ args = [] ∨
        inner ≠ [] ∧ args.length = Parser.outerCommas 0 inner + 1 ∧
          ∃ pieces, Parser.CutAtCommas inner pieces ∧
            args.map Token.text = pieces.map Parser.spacedText) := by
  obtain ⟨n, last, -, -, hfinal, -⟩ := st.exists_replaces line limit left cs
  obtain ⟨whole, hraw, hkind, hends⟩ := st.exists_rawTokens_pairwise line last
  rw [hfinal, hraw] at htokens ⊢
  -- A comment reaches up to the end of the line, so it is the last token in front of the end
  -- mark.
  obtain ⟨hstart, inner, comment, hbehind, hinner, hcomment⟩ :=
    exists_behind hkind hends (by simp [hname]) htokens
  have hstop : (Token.lineEnd line last).kind = .endOfLine := rfl
  obtain ⟨⟨t, ts, htail, ht⟩, -⟩ := exists_lineEnd hstop hcomment
  have hread := Parser.exists_cut_of_rawList (Token.lineEnd line last) hinner htail ht
  rw [← hbehind] at hread
  rcases hlist : Parser.rawList (Token.lineEnd line last) behind with ⟨args, rest⟩
  rw [hlist] at hread
  obtain ⟨rfl, hargs⟩ := hread
  have hend : Parser.endToken (.start line :: (whole ++ [Token.lineEnd line last])) =
      Token.lineEnd line last := by
    rw [Parser.endToken, ← List.cons_append, List.getLast?_concat]
    rfl
  have hparse : parseLine (.start line :: (whole ++ [Token.lineEnd line last])) =
      (.line { start, label, operation := some (.macroCall name args), comment }, []) := by
    unfold parseLine
    dsimp only
    rw [hend, htokens, Parser.line_macroCall (hstart ▸ rfl) hlabel hname hlist hcomment hstop]
  refine ⟨inner, args, comment, _, hbehind, fun t ht => ?_, hcomment, hstop, hparse, ?_⟩
  · simpa [Parser.endsArguments] using hinner t ht
  · rcases hargs with hnone | ⟨hne, pieces, hcut, htexts⟩
    · exact .inl hnone
    · refine .inr ⟨hne, ?_, pieces, hcut, htexts⟩
      have hlength := congrArg List.length htexts
      rw [List.length_map, List.length_map] at hlength
      exact hlength.trans hcut.length_eq

/-- The texts of the arguments of a macro call, and none for anything else. -/
def Statement.rawTexts : Statement → List String
  | .line { operation := some (.macroCall _ args), .. } => args.map Token.text
  | _ => []

/-- A macro call with a closing parenthesis too many. -/
def unbalancedLine : List Char := "lab: copy [hl],(1, 2) +3,, ), x  y ; two".toList

/-- The label of that line. -/
def unbalancedLabel : LabelDef := ⟨⟨.label, "lab", 1, 0⟩, some ⟨.colon, ":", 1, 3⟩⟩

theorem macroCall_arguments_lossless_unbalanced :
    ∃ args comment, parseLine ((State.ofConfig {}).tokensWithin 1 64 64 unbalancedLine).1 =
        (.line ⟨.start 1, some unbalancedLabel,
          some (.macroCall ⟨.macroCall, "copy", 1, 5⟩ args), comment⟩, []) ∧
      args.map Token.text = ["[hl]", "(1, 2) +3", "", ")", "x y"] := by
  have hlabel : ∀ l ∈ some unbalancedLabel, l.IsSpelled := by
    simp [LabelDef.IsSpelled, unbalancedLabel]
  have hfront : (((State.ofConfig {}).tokensWithin 1 64 64 unbalancedLine).1.filter
      fun t => !t.kind.isTrivia).take 4 =
        [.start 1, ⟨.label, "lab", 1, 0⟩, ⟨.colon, ":", 1, 3⟩, ⟨.macroCall, "copy", 1, 5⟩] := by
    decide +kernel
  have htokens : ((State.ofConfig {}).tokensWithin 1 64 64 unbalancedLine).1.filter
      (fun t => !t.kind.isTrivia) =
        .start 1 :: ((some unbalancedLabel).toList.flatMap LabelDef.tokens ++
          ⟨.macroCall, "copy", 1, 5⟩ ::
            (((State.ofConfig {}).tokensWithin 1 64 64 unbalancedLine).1.filter
              fun t => !t.kind.isTrivia).drop 4) := by
    conv_lhs => rw [← List.take_append_drop 4 (List.filter _ _), hfront]
    rfl
  obtain ⟨inner, args, comment, stop, -, -, -, -, hparse, -⟩ :=
    (State.ofConfig {}).macroCall_arguments_lossless 1 64 64 _ hlabel rfl htokens
  have htexts : (parseLine ((State.ofConfig {}).tokensWithin 1 64 64 unbalancedLine).1).1.rawTexts =
      ["[hl]", "(1, 2) +3", "", ")", "x y"] := by
    decide +kernel
  rw [hparse] at htexts
  exact ⟨args, comment, hparse, htexts⟩

end Sm83Asm
