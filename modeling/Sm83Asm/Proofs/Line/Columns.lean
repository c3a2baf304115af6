import Mathlib.Data.List.Perm.Subperm
import Sm83Asm.Proofs.Eval.Reports
import Sm83Asm.Proofs.Line.Consumed
import Sm83Asm.Proofs.Line.Passed
import Sm83Asm.Proofs.Token.Replacing
import Sm83Asm.Proofs.Token.Strings

set_option autoImplicit false

/-!
# Columns of a parsed line

The tokens that a line is read from stand in different columns, so the tokens that its label, its
operation and the expressions in it were made from do as well, in whatever order the tree has them.

Main statement: `nodup_columns_statement`.
-/

namespace Sm83Asm

theorem nodup_of_subperm {a b : List Nat} (h : a.Subperm b) (hb : b.Nodup) : a.Nodup := by
  obtain ⟨c, hperm, hsub⟩ := h
  exact hperm.nodup_iff.1 (hb.sublist hsub)

/-! ## Expressions -/

namespace Expr

/-- Tokens around others take no column away. -/
theorem subperm_between {columns : List Nat} {ts : List Token}
    (h : columns.Subperm (ts.map Token.column)) (front back : List Token) :
    columns.Subperm ((front ++ (ts ++ back)).map Token.column) := by
  rw [List.map_append, List.map_append]
  exact h.trans ((List.sublist_append_left _ _).trans (List.sublist_append_right _ _)).subperm

mutual

/-- The tokens of an expression are among those that it is read from. -/
theorem ReadFrom.subperm {e : Expr} {ts : List Token} (h : e.ReadFrom ts) :
    e.columns.Subperm (ts.map Token.column) := by
  match h with
  | .number _ | .string _ | .identifier _ => exact List.Subperm.refl _
  | @ReadFrom.unary _ t _ _ _ _ he => exact (List.subperm_cons t.column).2 he.subperm
  | @ReadFrom.binary _ t _ _ _ _ _ _ hl hr =>
    have hboth := (List.subperm_cons t.column).2 (hl.subperm.append hr.subperm)
    rw [List.map_append, List.map_cons]
    exact hboth.trans List.perm_middle.symm.subperm
  | @ReadFrom.call _ start close _ _ _ hname _ _ hargs =>
    rw [List.map_append]
    exact hname.subperm.append (subperm_between hargs.subperm [start] [close])
  | @ReadFrom.bracket t close _ _ _ _ he =>
    exact (List.subperm_cons t.column).2 (subperm_between he.subperm [] [close])
  | @ReadFrom.index t close _ _ _ _ _ _ hb he =>
    have hboth := (List.subperm_cons t.column).2
      (hb.subperm.append (subperm_between he.subperm [] [close]))
    rw [List.map_append, List.map_cons]
    exact hboth.trans List.perm_middle.symm.subperm
  | @ReadFrom.enclosed start close _ _ _ _ he =>
    exact subperm_between he.subperm [start] [close]

@[inherit_doc ReadFrom.subperm]
theorem AllReadFrom.subperm {es : List Expr} {ts : List Token} (h : AllReadFrom es ts) :
    (allColumns es).Subperm (ts.map Token.column) := by
  match h with
  | .nil => exact List.Subperm.refl _
  | @AllReadFrom.singleton e _ he =>
    show (e.columns ++ []).Subperm _
    rw [List.append_nil]
    exact he.subperm
  | @AllReadFrom.cons _ _ comma _ _ he _ _ hes =>
    rw [List.map_append, List.map_cons]
    exact he.subperm.append (hes.subperm.cons_right comma.column)

end

mutual

/-- No expression is read from the end of the line. -/
theorem ReadFrom.kind_ne {e : Expr} {ts : List Token} (h : e.ReadFrom ts) :
    ∀ t ∈ ts, t.kind ≠ .endOfLine := by
  match h with
  | .number hk | .string hk | .identifier hk =>
    exact List.forall_mem_singleton.2 (by simp [hk])
  | .unary hk _ he => exact List.forall_mem_cons.2 ⟨by simp [hk], he.kind_ne⟩
  | .binary hk _ hl hr =>
    exact List.forall_mem_append.2
      ⟨hl.kind_ne, List.forall_mem_cons.2 ⟨by simp [hk], hr.kind_ne⟩⟩
  | .call hname hstart hclose hargs =>
    exact List.forall_mem_append.2 ⟨hname.kind_ne, List.forall_mem_cons.2 ⟨by simp [hstart],
      List.forall_mem_append.2 ⟨hargs.kind_ne, by simp [hclose]⟩⟩⟩
  | .bracket hk hclose he | .enclosed hk hclose he =>
    exact List.forall_mem_cons.2 ⟨by simp [hk],
      List.forall_mem_append.2 ⟨he.kind_ne, by simp [hclose]⟩⟩
  | .index hk hclose hb he =>
    exact List.forall_mem_append.2 ⟨hb.kind_ne, List.forall_mem_cons.2 ⟨by simp [hk],
      List.forall_mem_append.2 ⟨he.kind_ne, by simp [hclose]⟩⟩⟩

@[inherit_doc ReadFrom.kind_ne]
theorem AllReadFrom.kind_ne {es : List Expr} {ts : List Token} (h : AllReadFrom es ts) :
    ∀ t ∈ ts, t.kind ≠ .endOfLine := by
  match h with
  | .nil => simp
  | .singleton he => exact he.kind_ne
  | .cons he hcomma _ hes =>
    exact List.forall_mem_append.2
      ⟨he.kind_ne, List.forall_mem_cons.2 ⟨by simp [hcomma], hes.kind_ne⟩⟩

end

end Expr

/-! ## Operations -/

namespace Parser

variable {eol : Token}

/-- The next token, and then those behind another one, are some of the tokens. -/
theorem peek_sublist (eol : Token) {tokens front ts : List Token} {t : Token}
    (h : tokens = front ++ t :: ts) :
    (peek eol tokens :: ts).Sublist tokens := by
  subst h
  cases front with
  | nil => exact .refl _
  | cons u front =>
    exact ((List.sublist_cons_self t ts).trans (List.sublist_append_right _ _)).cons_cons u

/-- Each argument that is kept as text stands in the column of one of the tokens, or of the one
behind them. -/
theorem columns_rawSequence (tokens : List Token) :
    ((rawSequence eol tokens).1.map Token.column).Sublist ((tokens ++ [eol]).map Token.column) := by
  rcases harg : rawArgument 0 none tokens with ⟨text, rest⟩
  obtain ⟨front, htokens, -⟩ := exists_rawArgument 0 none tokens
  rw [harg] at htokens
  by_cases hlast : ∀ t ∈ rest.head?, t.kind ≠ .comma
  · rw [rawSequence_of_last harg hlast]
    have hpeek : peek eol tokens ∈ tokens ++ [eol] := by
      cases tokens with
      | nil => exact List.mem_singleton_self eol
      | cons t ts => exact List.mem_cons_self
    have hcolumn : (peek eol tokens).column ∈ (tokens ++ [eol]).map Token.column :=
      List.mem_map_of_mem hpeek
    exact List.singleton_sublist.2 hcolumn
  · obtain ⟨t, ts, rfl, hk⟩ : ∃ t ts, rest = t :: ts ∧ t.kind = .comma := by
      cases rest with
      | nil => exact absurd (by simp) hlast
      | cons t ts => exact ⟨t, ts, rfl, by simpa using hlast⟩
    have hlt : ts.length < tokens.length := by
      rw [htokens, List.length_append, List.length_cons]
      omega
    rw [rawSequence_of_comma harg hk]
    have hfirst := ((peek_sublist eol htokens).append_right [eol]).map Token.column
    exact ((columns_rawSequence ts).cons_cons _).trans hfirst
termination_by tokens.length

theorem columns_rawList (eol : Token) (tokens : List Token) :
    ((rawList eol tokens).1.map Token.column).Sublist ((tokens ++ [eol]).map Token.column) := by
  unfold rawList
  split
  · exact List.nil_sublist _
  · exact columns_rawSequence tokens

/-- Text is kept up to the end of the line at most. -/
theorem exists_front_rawArgument (depth : Nat) (last : Option Nat) (tokens : List Token) :
    ∃ front, tokens = front ++ (rawArgument depth last tokens).2 ∧
      ∀ t ∈ front, t.kind ≠ .endOfLine := by
  induction tokens generalizing depth last with
  | nil => exact ⟨[], rfl, by simp⟩
  | cons t tokens ih =>
    by_cases hstop : (endsArguments t || (t.kind == .comma && depth == 0)) = true
    · rw [rawArgument_of_stop hstop]
      exact ⟨[], rfl, by simp⟩
    · obtain ⟨front, htokens, hfront⟩ := ih (depthAfter depth t) (some t.finish)
      rw [rawArgument_of_not_stop hstop]
      refine ⟨t :: front, congrArg (t :: ·) htokens, List.forall_mem_cons.2 ⟨?_, hfront⟩⟩
      intro hk
      exact hstop (by simp [endsArguments, hk])

theorem kind_ne_of_rawSequence (tokens : List Token) (h : (rawSequence eol tokens).2 = []) :
    ∀ t ∈ tokens, t.kind ≠ .endOfLine := by
  rcases harg : rawArgument 0 none tokens with ⟨text, rest⟩
  obtain ⟨front, htokens, hfront⟩ := exists_front_rawArgument 0 none tokens
  rw [harg] at htokens
  by_cases hlast : ∀ t ∈ rest.head?, t.kind ≠ .comma
  · rw [rawSequence_of_last harg hlast] at h
    obtain rfl : rest = [] := h
    rw [htokens, List.append_nil]
    exact hfront
  · obtain ⟨t, ts, rfl, hk⟩ : ∃ t ts, rest = t :: ts ∧ t.kind = .comma := by
      cases rest with
      | nil => exact absurd (by simp) hlast
      | cons t ts => exact ⟨t, ts, rfl, by simpa using hlast⟩
    have hlt : ts.length < tokens.length := by
      rw [htokens, List.length_append, List.length_cons]
      omega
    rw [rawSequence_of_comma harg hk] at h
    rw [htokens]
    exact List.forall_mem_append.2 ⟨hfront, List.forall_mem_cons.2
      ⟨by simp [hk], kind_ne_of_rawSequence ts h⟩⟩
termination_by tokens.length

theorem kind_ne_of_rawList {tokens args : List Token} (h : rawList eol tokens = (args, [])) :
    ∀ t ∈ tokens, t.kind ≠ .endOfLine := by
  unfold rawList at h
  split at h
  · obtain rfl : tokens = [] := (Prod.mk.inj h).2
    simp
  · exact kind_ne_of_rawSequence tokens (congrArg Prod.snd h)

end Parser

/-- The columns of the tokens that an operation was made from. -/
def Operation.columns : Operation → List Nat
  | .directive word args | .keyword word args | .opcode word args =>
    word.column :: Expr.allColumns args
  | .options word args | .macroCall word args => word.column :: args.map Token.column
  | .assign word e => word.column :: Expr.allColumns [e]

/-- The tokens of an operation are among those that it is read from and the one behind. -/
theorem Operation.ReadFrom.subperm {next : Token} {op : Operation} {ts : List Token}
    (h : op.ReadFrom next ts) : op.columns.Subperm ((ts ++ [next]).map Token.column) := by
  have hexpressions : ∀ {word : Token} {args : List Expr} {ts : List Token},
      Expr.AllReadFrom args ts →
        (word.column :: Expr.allColumns args).Subperm
          ((word :: ts ++ [next]).map Token.column) := by
    intro word args ts hargs
    exact (List.subperm_cons word.column).2 (Expr.subperm_between hargs.subperm [] [next])
  have hraw : ∀ {word : Token} {args ts : List Token}, Parser.rawList next ts = (args, []) →
      (word.column :: args.map Token.column).Subperm ((word :: ts ++ [next]).map Token.column) := by
    intro word args ts hargs
    have hcolumns := Parser.columns_rawList next ts
    rw [hargs] at hcolumns
    exact (hcolumns.cons_cons word.column).subperm
  cases h with
  | directive _ hargs | keyword _ hargs | opcode _ hargs => exact hexpressions hargs
  | options _ hargs | macroCall _ hargs => exact hraw hargs
  | assign _ _ hvalue => exact hexpressions (.singleton hvalue)

theorem Operation.ReadFrom.kind_ne {next : Token} {op : Operation} {ts : List Token}
    (h : op.ReadFrom next ts) : ∀ t ∈ ts, t.kind ≠ .endOfLine := by
  cases h with
  | directive hk hargs | keyword hk hargs =>
    exact List.forall_mem_cons.2 ⟨by simp [hk], hargs.kind_ne⟩
  | opcode hk hargs =>
    refine List.forall_mem_cons.2 ⟨?_, hargs.kind_ne⟩
    rcases hk with hk | hk
    · simp [hk]
    · simp [hk]
  | options hk hargs | macroCall hk hargs =>
    exact List.forall_mem_cons.2 ⟨by simp [hk], Parser.kind_ne_of_rawList hargs⟩
  | assign hk _ hvalue => exact List.forall_mem_cons.2 ⟨by simp [hk], hvalue.kind_ne⟩

/-! ## Lines -/

/-- The columns of the tokens that a line was made from. -/
def Line.columns (line : Line) : List Nat :=
  line.label.toList.map (fun label => label.name.column) ++
    line.operation.toList.flatMap Operation.columns

/-- The name of a label is one of its tokens, and none of them ends the line. -/
theorem LabelDef.IsSpelled.kind_ne {label : LabelDef} (h : label.IsSpelled) :
    ∀ t ∈ label.tokens, t.kind ≠ .endOfLine := by
  refine List.forall_mem_cons.2 ⟨by simp [h.1], fun t ht => ?_⟩
  rcases h.2 t (by simpa using ht) with hk | hk
  · simp [hk]
  · simp [hk]

/-- A line that ends in a mark is made from tokens behind the start. -/
theorem Line.ReadFrom.subperm {eol first stop : Token} {parsed : Line} {inner : List Token}
    (h : parsed.ReadFrom eol (first :: (inner ++ [stop]))) (hstop : stop.kind = .endOfLine) :
    parsed.columns.Subperm ((inner ++ [stop]).map Token.column) := by
  generalize htokens : first :: (inner ++ [stop]) = tokens at h
  cases h with
  | @intro start label operation comment mark ts hstart hlabel hoperation hcomment hmark =>
    obtain ⟨-, hinner⟩ := List.cons.inj htokens
    rw [hinner]
    -- The mark at the end is neither in the label nor in the operation.
    have hrest : comment.toList ++ mark.toList ≠ [] := by
      intro hnil
      rw [hnil, List.append_nil] at hinner
      have hmem : stop ∈ label.toList.flatMap LabelDef.tokens ++ ts := by
        rw [← hinner]
        simp
      rcases List.mem_append.1 hmem with hmem | hmem
      · obtain ⟨l, hl, hmem⟩ := List.mem_flatMap.1 hmem
        exact (hlabel l (by simpa using hl)).kind_ne stop hmem hstop
      · cases operation with
        | none =>
          obtain rfl : ts = [] := hoperation
          exact absurd hmem (by simp)
        | some op => exact Operation.ReadFrom.kind_ne hoperation stop hmem hstop
    have hnext : [Parser.peek eol (comment.toList ++ mark.toList)].Sublist
        (comment.toList ++ mark.toList) := by
      cases hcases : comment.toList ++ mark.toList with
      | nil => exact absurd hcases hrest
      | cons t rest => exact List.singleton_sublist.2 List.mem_cons_self
    unfold Line.columns
    rw [List.map_append]
    apply List.Subperm.append
    · cases label with
      | none => exact List.nil_subperm
      | some label => exact (List.singleton_sublist.2 (by simp [LabelDef.tokens])).subperm
    · cases operation with
      | none => exact List.nil_subperm
      | some op =>
        have hop := Operation.ReadFrom.subperm hoperation
        simp only [Option.toList_some, List.flatMap_cons, List.flatMap_nil, List.append_nil]
        exact hop.trans (((List.Sublist.refl ts).append hnext).map Token.column).subperm

/-! ## Lines of text -/

theorem endsOnce_append {front : List Token} (last : Token)
    (h : ∀ t ∈ front, t.kind ≠ .endOfLine) : EndsOnce (front ++ [last]) :=
  List.pairwise_append.2
    ⟨List.pairwise_of_forall_mem_list fun t ht _ _ => h t ht, List.pairwise_singleton _ _,
      fun t ht _ _ => h t ht⟩

/-- No rule finds the end of a line. -/
theorem kind_matchAt_ne (cur : Cursor) (cs : List Char) :
    (cur.matchAt cs).kind ≠ .endOfLine := by
  have hrule : ∀ {kind n} {m : Match}, some m = ofLength kind n → kind ≠ .endOfLine →
      m.kind ≠ .endOfLine := by
    intro kind n m hm hk
    obtain ⟨-, rfl⟩ := ofLength_eq_some hm.symm
    exact hk
  unfold Cursor.matchAt
  cases hscan : scanTop cur.context cur.pos cs with
  | none => simp
  | some m =>
    have h := mem_candidates_of_scanTop hscan
    simp only [candidates, List.mem_cons, List.not_mem_nil, or_false] at h
    rcases h with h | h | h | h | h | h | h | h | h | h | h | h | h | h | h | h | h | h | h
    case inr.inr.inr.inl => simp [kind_delimited h.symm]
    case inr.inr.inr.inr.inl => simp [kind_delimited h.symm]
    all_goals exact hrule h (by decide)

/-- The tokens of a line of text: what stands between the start and the end spells the line, and is
not the end. -/
theorem State.exists_rawTokens (st : State) (line : Nat) (cs : List Char) : ∃ inner,
    st.rawTokens line cs = .start line :: (inner ++ [Token.lineEnd line cs]) ∧
      TokenRow line 0 inner cs ∧ ∀ t ∈ inner, t.kind ≠ .endOfLine := by
  obtain ⟨inner, hr, heq⟩ :=
    exists_classify_between line ((piecesFrom line st.cursor cs).map Piece.token) cs
  refine ⟨inner, heq, (row_piecesFrom line st.cursor cs).retagged hr, fun t ht hk => ?_⟩
  have hmem := mem_of_retagged hr ht (by simp [hk]) (by simp [hk])
  obtain ⟨p, hp, rfl⟩ := List.mem_map.1 hmem
  obtain ⟨cur, rest, rfl⟩ := exists_piece line _ cs p hp
  exact kind_matchAt_ne cur rest hk

/-- The tokens of a row and the end behind it stand in different columns. -/
theorem TokenRow.nodup_columns {line : Nat} {inner : List Token} {cs : List Char}
    (h : TokenRow line 0 inner cs) :
    ((inner ++ [Token.lineEnd line cs]).map Token.column).Nodup := by
  rw [List.map_append]
  refine List.Nodup.append ?_ (List.nodup_singleton _) ?_
  · exact (List.pairwise_map.2 h.pairwise_column).imp fun hlt => Nat.ne_of_lt hlt
  · intro column hmem hend
    obtain ⟨t, ht, rfl⟩ := List.mem_map.1 hmem
    have hlt := (h.column_lt t ht).2
    have heq : t.column = Text.byteLength cs := by simpa [Token.lineEnd] using hend
    omega

namespace Assembler

/-- The tokens that a line was made from stand in different columns. -/
theorem nodup_columns_statement {line : Nat} {text : String} {st st' : State} {parsed : Line}
    (h : statement line text st = (.line parsed, st')) : parsed.columns.Nodup := by
  rcases statement_cases h with hpass | ⟨-, hparse⟩
  · obtain ⟨start, word, keyword, -, -, rfl⟩ := State.bare_of_passOver? hpass
    exact List.nodup_singleton _
  · obtain ⟨n, last, -, -, htokens, -⟩ := st.exists_replaces line
      st.config.maxSubstitutions st.config.maxSubstitutions text.toList
    obtain ⟨inner, hraw, hrow, hkind⟩ := st.exists_rawTokens line last
    have heq : (st.tokenize line text.toList).1 =
        .start line :: (inner ++ [Token.lineEnd line last]) := htokens.trans hraw
    have hfront : ∀ t ∈ Token.start line :: inner, t.kind ≠ .endOfLine :=
      List.forall_mem_cons.2 ⟨by simp [Token.start], hkind⟩
    have honce : EndsOnce (.start line :: (inner ++ [Token.lineEnd line last])) :=
      endsOnce_append _ hfront
    have hfilter : (Token.start line :: (inner ++ [Token.lineEnd line last])).filter
        (fun t => !t.kind.isTrivia) = .start line :: (inner.filter (fun t => !t.kind.isTrivia) ++
          [Token.lineEnd line last]) := by
      simp [Token.start, Token.lineEnd, TokenKind.isTrivia]
    rw [heq] at hparse
    rcases parseLine_cases (.start line :: (inner ++ [Token.lineEnd line last])) with
      ⟨stop, cause, token, hinvalid⟩ | ⟨found, hfound, hread⟩
    · rw [hinvalid] at hparse
      exact absurd hparse (by simp)
    · rw [hfound] at hparse
      obtain rfl : found = parsed := Statement.line.inj hparse
      have hread := hread honce
      rw [hfilter] at hread
      refine nodup_of_subperm (hread.subperm rfl) ?_
      exact hrow.nodup_columns.sublist ((List.filter_sublist.append (.refl _)).map Token.column)

end Assembler

end Sm83Asm
