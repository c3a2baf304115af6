import Mathlib.Data.List.Forall2
import Sm83Asm.Proofs.Text
import Sm83Asm.Proofs.Token.Bounds

set_option autoImplicit false

/-!
# Tokens cover their line

The tokens of a line stand one behind the other and leave nothing out: their texts put together are
the line, and each stands in the column that the texts in front of it fill up. Telling labels and
macro calls from other identifiers changes no more than the class of a token.

Main statements: `tokensOf_piecesFrom` for the tokens of a line, and `text_ne_of_label` for what
follows about labels.
-/

namespace Sm83Asm

/-! ## Words -/

theorem isAlpha_of_toUpper {c : Char} (h : c.toUpper.isAlpha = true) : c.isAlpha = true := by
  unfold Char.toUpper at h
  split at h
  · rename_i hlower
    have hcase : c.isLower = true := by
      unfold Char.isLower
      simpa using hlower
    unfold Char.isAlpha
    rw [hcase, Bool.or_true]
  · exact h

theorem isAlpha_of_toLower {c : Char} (h : c.toLower.isAlpha = true) : c.isAlpha = true := by
  unfold Char.toLower at h
  split at h
  · rename_i hupper
    have hcase : c.isUpper = true := by
      unfold Char.isUpper
      simpa using hupper
    unfold Char.isAlpha
    rw [hcase, Bool.true_or]
  · exact h

/-- A text that begins with a letter. -/
def BeginsWithLetter (cs : List Char) : Prop := cs.head?.any Char.isAlpha = true

/-- Every keyword begins with a letter. -/
theorem beginsWithLetter_of_keyword {word : String} {keyword : Keyword}
    (h : Keyword.ofWord? word = some keyword) : BeginsWithLetter word.toList := by
  have hnames : ∀ k ∈ Keyword.all, BeginsWithLetter k.name.toList := by
    unfold BeginsWithLetter
    decide +kernel
  unfold Keyword.ofWord? at h
  have hname := hnames keyword (List.mem_of_find?_eq_some h)
  have hspelled : keyword.name = Text.upper word := by
    simpa using List.find?_some h
  rw [hspelled, Text.upper, String.toList_ofList] at hname
  unfold BeginsWithLetter at hname ⊢
  cases hw : word.toList with
  | nil => simp [hw] at hname
  | cons c cs =>
    rw [hw] at hname
    exact isAlpha_of_toUpper hname

/-- Every mnemonic begins with a letter. -/
theorem beginsWithLetter_of_mnemonic {word : String} (h : isMnemonic word = true) :
    BeginsWithLetter word.toList := by
  have hnames : ∀ entry ∈ instructionTable, BeginsWithLetter entry.1.toList := by
    unfold BeginsWithLetter
    decide +kernel
  obtain ⟨variants, hv⟩ := Option.isSome_iff_exists.1 h
  obtain ⟨front, back, hsplit, -⟩ := List.lookup_eq_some_iff.1 hv
  have hname := hnames (Text.lower word, variants) (by rw [hsplit]; simp)
  rw [Text.lower, String.toList_ofList] at hname
  unfold BeginsWithLetter at hname ⊢
  cases hw : word.toList with
  | nil => simp [hw] at hname
  | cons c cs =>
    rw [hw] at hname
    exact isAlpha_of_toLower hname

theorem beginsWithLetter_of_headWord {cs : List Char}
    (h : BeginsWithLetter (headWord cs).toList) : BeginsWithLetter cs := by
  revert h
  unfold BeginsWithLetter headWord
  rw [String.toList_ofList]
  cases cs with
  | nil => exact id
  | cons c cs => cases hc : Text.isWordChar c <;> simp [hc]

/-- Where an identifier begins with a letter, it takes every character that it could. -/
theorem countWhile_le_identifierLength {cs : List Char} (h : BeginsWithLetter cs) :
    countWhile Text.isIdentChar cs ≤ identifierLength cs := by
  unfold BeginsWithLetter at h
  cases cs with
  | nil => exact absurd h (by simp)
  | cons c cs =>
    have halpha : c.isAlpha = true := h
    have hat : (c == '@') = false := by
      rw [beq_eq_false_iff_ne]
      rintro rfl
      exact absurd halpha (by decide)
    simp only [identifierLength, hat, Bool.false_eq_true, if_false, halpha, Bool.true_or, if_true]
    split
    · exact Nat.le_succ _
    · exact Nat.le_refl _

/-- A word goes no further than an identifier. -/
theorem countWhile_word_le (cs : List Char) :
    countWhile Text.isWordChar cs ≤ countWhile Text.isIdentChar cs := by
  unfold countWhile
  induction cs with
  | nil => exact Nat.le_refl _
  | cons c cs ih =>
    cases hc : Text.isWordChar c with
    | false => simp [hc]
    | true =>
      have hident : Text.isIdentChar c = true := by simp [Text.isIdentChar, hc]
      simpa [hc, hident] using ih

/-- Behind the characters that are counted stands one that fails the test. -/
theorem head?_drop_countWhile (p : Char → Bool) (cs : List Char) :
    (cs.drop (countWhile p cs)).head?.any p = false := by
  unfold countWhile
  induction cs with
  | nil => rfl
  | cons c cs ih =>
    cases hc : p c with
    | false => simp [hc]
    | true => simpa [hc] using ih

/-- Only two rules give a keyword or a mnemonic. -/
theorem word_of_mem_candidates {ctx : ScanContext} {pos : Nat} {cs : List Char} {m : Match}
    (h : some m ∈ candidates ctx pos cs) (hk : m.kind = .keyword ∨ m.kind = .opcode) :
    ofLength .keyword (keywordLength ctx cs) = some m ∨
      ofLength .opcode (opcodeLength cs) = some m := by
  have hother : ∀ {kind : TokenKind} {n : Nat}, some m = ofLength kind n → kind ≠ .keyword →
      kind ≠ .opcode → False := by
    rintro kind n h hkeyword hopcode
    obtain ⟨-, rfl⟩ := ofLength_eq_some h.symm
    exact hk.elim hkeyword hopcode
  have henclosed : ∀ {kind : TokenKind} {opening : Char} {d : Delimiter},
      some m = delimited kind opening d pos cs → m.kind = kind := by
    intro kind opening d h
    unfold delimited at h
    split at h
    · exact absurd h (by simp)
    · split at h
      · obtain ⟨p, -, rfl⟩ := Option.map_eq_some_iff.1 h.symm
        rfl
      · exact absurd h (by simp)
  simp only [candidates, List.mem_cons, List.not_mem_nil, or_false] at h
  rcases h with h | h | h | h | h | h | h | h | h | h | h | h | h | h | h | h | h | h | h
  case inr.inr.inr.inl => exact absurd hk (by simp [henclosed h])
  case inr.inr.inr.inr.inl => exact absurd hk (by simp [henclosed h])
  case inr.inr.inr.inr.inr.inr.inr.inr.inl => exact Or.inl h.symm
  case inr.inr.inr.inr.inr.inr.inr.inr.inr.inl => exact Or.inr h.symm
  all_goals exact (hother h (by decide) (by decide)).elim

/-- A keyword or a mnemonic takes all word characters, and it begins with a letter. -/
theorem word_of_scanTop {ctx : ScanContext} {pos : Nat} {cs : List Char} {m : Match}
    (h : scanTop ctx pos cs = some m) (hk : m.kind = .keyword ∨ m.kind = .opcode) :
    m.length = countWhile Text.isWordChar cs ∧ BeginsWithLetter cs := by
  rcases word_of_mem_candidates (mem_candidates_of_scanTop h) hk with h | h
  · obtain ⟨hpos, rfl⟩ := ofLength_eq_some h
    unfold keywordLength at hpos ⊢
    split at hpos
    · rename_i keyword hword
      split at hpos
      · rename_i hallowed
        exact ⟨by simp [hallowed],
          beginsWithLetter_of_headWord (beginsWithLetter_of_keyword hword)⟩
      · exact absurd hpos (by simp)
    · exact absurd hpos (by simp)
  · obtain ⟨hpos, rfl⟩ := ofLength_eq_some h
    unfold opcodeLength at hpos ⊢
    split at hpos
    · rename_i hword
      exact ⟨by simp [hword],
        beginsWithLetter_of_headWord (beginsWithLetter_of_mnemonic hword)⟩
    · exact absurd hpos (by simp)

/-- Behind a keyword or a mnemonic stands no character that would make it a longer identifier. -/
theorem head?_behind_word {ctx : ScanContext} {pos : Nat} {cs : List Char} {m : Match}
    (h : scanTop ctx pos cs = some m) (hk : m.kind = .keyword ∨ m.kind = .opcode) :
    (cs.drop m.length).head?.any Text.isIdentChar = false := by
  obtain ⟨hlength, hletter⟩ := word_of_scanTop h hk
  have hident := countWhile_le_identifierLength hletter
  have hle := countWhile_word_le cs
  have hpos := (fits_scanTop h).whole.pos
  -- The identifier at this place loses, so it is no longer.
  have hwins : identifierLength cs ≤ m.length := by
    obtain ⟨n, hn⟩ : ∃ n, identifierLength cs = n + 1 := ⟨identifierLength cs - 1, by omega⟩
    refine length_le_of_scanTop (k := { kind := .identifier, length := identifierLength cs }) h ?_
    simp [candidates, hn, ofLength]
  have hall : m.length = countWhile Text.isIdentChar cs := by omega
  rw [hall]
  exact head?_drop_countWhile _ cs

/-! ## Rows of tokens -/

/-- Tokens of a line that stand one behind the other from a column on and spell a text. No
identifier goes on behind a keyword or a mnemonic. -/
inductive TokenRow (line : Nat) : Nat → List Token → List Char → Prop
  | nil (column : Nat) : TokenRow line column [] []
  | cons {column : Nat} {t : Token} {ts : List Token} {rest : List Char}
      (hne : t.text.toList ≠ []) (hline : t.line = line) (hcolumn : t.column = column)
      (hword : t.kind = .keyword ∨ t.kind = .opcode → rest.head?.any Text.isIdentChar = false)
      (hrest : TokenRow line (column + Text.byteLength t.text.toList) ts rest) :
      TokenRow line column (t :: ts) (t.text.toList ++ rest)

/-- Behind a keyword or a mnemonic no identifier goes on. -/
theorem Cursor.matchAt_behind_word (cur : Cursor) {cs : List Char}
    (hk : (cur.matchAt cs).kind = .keyword ∨ (cur.matchAt cs).kind = .opcode) :
    (cs.drop (cur.matchAt cs).length).head?.any Text.isIdentChar = false := by
  unfold Cursor.matchAt at hk ⊢
  cases h : scanTop cur.context cur.pos cs with
  | some m =>
    rw [h] at hk
    exact head?_behind_word h hk
  | none =>
    rw [h] at hk
    exact absurd hk (by decide)

/-- The pieces of a line, or of its rest, spell it. -/
theorem row_piecesFrom (line : Nat) (cur : Cursor) (cs : List Char) :
    TokenRow line cur.column ((piecesFrom line cur cs).map Piece.token) cs := by
  fun_induction piecesFrom line cur cs with
  | case1 cur => exact .nil _
  | case2 cur c rest m ih =>
    have hcut := (cur.fits_matchAt (List.cons_ne_nil c rest)).whole
    have hdrop : rest.drop (m.length - 1) = (c :: rest).drop m.length := by
      rw [← Nat.succ_pred_eq_of_pos hcut.pos]
      rfl
    have htext : (cur.piece line m (c :: rest)).token.text.toList = (c :: rest).take m.length :=
      String.toList_ofList
    have hrow : TokenRow line cur.column
        ((cur.piece line m (c :: rest)).token ::
          (piecesFrom line (cur.advance m (c :: rest)) (rest.drop (m.length - 1))).map Piece.token)
        ((cur.piece line m (c :: rest)).token.text.toList ++ (c :: rest).drop m.length) := by
      refine .cons ?_ rfl rfl cur.matchAt_behind_word ?_
      · rw [htext]
        exact hcut.take_ne_nil
      · rw [htext, ← hdrop]
        exact ih
    rwa [htext, List.take_append_drop] at hrow

namespace TokenRow

variable {line column : Nat} {ts : List Token} {cs : List Char}

/-- The texts of a row of tokens put together are the text. -/
theorem text_eq (h : TokenRow line column ts cs) : ts.flatMap (·.text.toList) = cs := by
  induction h with
  | nil => rfl
  | cons _ _ _ _ _ ih => rw [List.flatMap_cons, ih]

theorem line_eq (h : TokenRow line column ts cs) :
    ∀ t ∈ ts, t.line = line ∧ t.text.toList ≠ [] := by
  induction h with
  | nil => simp
  | cons hne hline _ _ _ ih => exact List.forall_mem_cons.2 ⟨⟨hline, hne⟩, ih⟩

/-- Every token stands in the column that the texts in front of it fill up. -/
theorem column_eq (h : TokenRow line column ts cs) {front back : List Token} {t : Token}
    (hsplit : ts = front ++ t :: back) :
    t.column = column + Text.byteLength (front.flatMap (·.text.toList)) := by
  induction h generalizing front with
  | nil => exact absurd hsplit (by simp)
  | cons _ _ hcolumn _ _ ih =>
    cases front with
    | nil =>
      obtain ⟨rfl, -⟩ := List.cons.inj hsplit
      exact hcolumn
    | cons u front =>
      obtain ⟨rfl, htail⟩ := List.cons.inj hsplit
      rw [ih htail, List.flatMap_cons, Text.byteLength_append]
      omega

/-- In a row of tokens, no identifier goes on behind a keyword or a mnemonic. -/
theorem behind_word (h : TokenRow line column ts cs) {front back : List Token} {t : Token}
    (hsplit : ts = front ++ t :: back) (hk : t.kind = .keyword ∨ t.kind = .opcode) :
    (back.flatMap (·.text.toList)).head?.any Text.isIdentChar = false := by
  induction h generalizing front with
  | nil => exact absurd hsplit (by simp)
  | cons _ _ _ hword hrest ih =>
    cases front with
    | nil =>
      obtain ⟨rfl, rfl⟩ := List.cons.inj hsplit
      rw [hrest.text_eq]
      exact hword hk
    | cons u front => exact ih (List.cons.inj hsplit).2

end TokenRow

/-! ## Labels and macro calls -/

/-- A token that may have become a label or a macro call. -/
def Token.Retagged (t t' : Token) : Prop :=
  t' = t ∨ isSignificant t = true ∧ ∃ kind, (kind = .label ∨ kind = .macroCall) ∧
    t' = { t with kind }

theorem Token.Retagged.trans {t t' t'' : Token} (h : t.Retagged t') (h' : t'.Retagged t'') :
    t.Retagged t'' := by
  rcases h with rfl | ⟨hs, kind, hk, rfl⟩
  · exact h'
  · rcases h' with rfl | ⟨-, kind', hk', rfl⟩
    · exact Or.inr ⟨hs, kind, hk, rfl⟩
    · exact Or.inr ⟨hs, kind', hk', rfl⟩

/-- A token without significance is not retagged. -/
theorem Token.Retagged.eq_of_not_significant {t t' : Token} (h : t.Retagged t')
    (hs : isSignificant t = false) : t' = t := by
  rcases h with h | ⟨hs', -⟩
  · exact h
  · exact absurd hs' (by simp [hs])

theorem retagged_refl (tokens : List Token) : List.Forall₂ Token.Retagged tokens tokens :=
  List.forall₂_same.2 fun _ _ => Or.inl rfl

theorem retagged_trans {ts ts' ts'' : List Token} (h : List.Forall₂ Token.Retagged ts ts')
    (h' : List.Forall₂ Token.Retagged ts' ts'') : List.Forall₂ Token.Retagged ts ts'' := by
  induction h generalizing ts'' with
  | nil => exact h'
  | cons ht _ ih =>
    obtain ⟨t'', rest, ht', hrest, rfl⟩ := List.forall₂_cons_left_iff.1 h'
    exact .cons (ht.trans ht') (ih hrest)

/-- Retagging one token retags no other. -/
theorem retagged_retag {kind : TokenKind} (hk : kind = .label ∨ kind = .macroCall) (n : Nat)
    (tokens : List Token) : List.Forall₂ Token.Retagged tokens (retag kind n tokens) := by
  induction tokens generalizing n with
  | nil => exact .nil
  | cons t ts ih =>
    unfold retag
    split
    · rename_i hs
      split
      · exact .cons (Or.inr ⟨hs, kind, hk, rfl⟩) (retagged_refl ts)
      · exact .cons (Or.inl rfl) (ih _)
    · exact .cons (Or.inl rfl) (ih _)

/-- Classifying tokens only retags them. -/
theorem retagged_classify (tokens : List Token) :
    List.Forall₂ Token.Retagged tokens (classify tokens) := by
  have hlabel := retagged_retag (Or.inl rfl) 0 tokens
  unfold classify
  split
  · exact retagged_refl _
  · dsimp only
    split
    · exact retagged_refl _
    · split
      · split
        · exact retagged_trans hlabel (retagged_retag (Or.inr rfl) 2 _)
        · exact hlabel
      · exact retagged_retag (Or.inr rfl) 0 tokens

/-- Classes do not matter for what a row spells. -/
theorem TokenRow.retagged {line column : Nat} {ts ts' : List Token} {cs : List Char}
    (h : TokenRow line column ts cs) (hr : List.Forall₂ Token.Retagged ts ts') :
    TokenRow line column ts' cs := by
  induction h generalizing ts' with
  | nil =>
    obtain rfl := List.forall₂_nil_left_iff.1 hr
    exact .nil _
  | @cons column t ts rest hne hline hcolumn hword hrest ih =>
    obtain ⟨t', ts', ht, hts, rfl⟩ := List.forall₂_cons_left_iff.1 hr
    rcases ht with rfl | ⟨-, kind, hk, rfl⟩
    · exact .cons hne hline hcolumn hword (ih hts)
    · refine TokenRow.cons (t := { t with kind }) hne hline hcolumn (fun hw => ?_) (ih hts)
      rcases hk with rfl | rfl
      · exact absurd hw (by simp)
      · exact absurd hw (by simp)

/-- The end token of a line. -/
def Token.lineEnd (line : Nat) (cs : List Char) : Token :=
  ⟨.endOfLine, "", line, Text.byteLength cs⟩

/-- Between the start and the end of a line, classes may have changed, and nowhere else. -/
theorem exists_classify_between (line : Nat) (inner : List Token) (cs : List Char) :
    ∃ inner', List.Forall₂ Token.Retagged inner inner' ∧
      classify (.start line :: inner ++ [Token.lineEnd line cs]) =
        .start line :: inner' ++ [Token.lineEnd line cs] := by
  have hr := retagged_classify (.start line :: (inner ++ [Token.lineEnd line cs]))
  obtain ⟨first, rest, hfirst, hrest, heq⟩ := List.forall₂_cons_left_iff.1 hr
  obtain rfl := hfirst.eq_of_not_significant rfl
  have hinner := List.forall₂_take inner.length hrest
  have hend := List.forall₂_drop inner.length hrest
  rw [List.take_left] at hinner
  rw [List.drop_left] at hend
  obtain ⟨last, none, hlast, hnone, hdrop⟩ := List.forall₂_cons_left_iff.1 hend
  obtain rfl := hlast.eq_of_not_significant rfl
  obtain rfl := List.forall₂_nil_left_iff.1 hnone
  refine ⟨rest.take inner.length, hinner, ?_⟩
  rw [List.cons_append, List.cons_append, heq, ← hdrop, List.take_append_drop]

/-- The tokens of a line: a row that spells it, between the start and the end. -/
theorem tokensOf_piecesFrom (line : Nat) (context : ScanContext) (cs : List Char) :
    ∃ inner, tokensOf line cs (piecesFrom line { context } cs) =
        .start line :: inner ++ [Token.lineEnd line cs] ∧ TokenRow line 0 inner cs := by
  obtain ⟨inner, hr, heq⟩ :=
    exists_classify_between line ((piecesFrom line { context } cs).map Piece.token) cs
  exact ⟨inner, heq, (row_piecesFrom line { context } cs).retagged hr⟩

/-! ## Labels -/

/-- A label is never empty: only the start and the end of a line are. -/
theorem text_ne_of_label {line : Nat} {cs : List Char} {inner : List Token}
    (h : TokenRow line 0 inner cs) {t : Token}
    (ht : t ∈ .start line :: inner ++ [Token.lineEnd line cs]) (hk : t.kind = .label) :
    t.text.toList ≠ [] := by
  rcases List.mem_append.1 ht with ht | ht
  · rcases List.mem_cons.1 ht with rfl | ht
    · exact absurd hk (by simp [Token.start])
    · exact (h.line_eq t ht).2
  · obtain rfl := List.mem_singleton.1 ht
    exact absurd hk (by simp [Token.lineEnd])

end Sm83Asm
