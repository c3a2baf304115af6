import Mathlib.Data.List.TakeWhile
import Sm83Asm.Eval.Literal
import Sm83Asm.Proofs.Token.Replacing

set_option autoImplicit false

/-!
# Strings behind the lexer

Text in a string literal is replaced twice: by the lexer, which finds matches inside the string by
its rules, and by the evaluator, which goes over the characters of the literal. The two agree on
where escapes, macro arguments and braces begin and end. So when the lexer has left nothing to
replace, the evaluator finds nothing either, and only the escapes of single characters are left.

Main statements: `substitutePass_of_contents` for the text between the quotes, and
`strings_replaced_once`.
-/

namespace Sm83Asm

/-! ## Passes of the evaluator -/

/-- A pass that keeps a text as it is. -/
def Pass.kept (cs : List Char) : Pass := ⟨cs, false, []⟩

@[simp] theorem Pass.keep_kept (front cs : List Char) :
    (Pass.kept cs).keep front = .kept (front ++ cs) := rfl

theorem Pass.eq_kept_of_keep {p : Pass} (front : List Char) {cs : List Char}
    (h : p.keep front = .kept (front ++ cs)) : p = .kept cs := by
  obtain ⟨text, changed, errors⟩ := p
  obtain ⟨htext, rfl, rfl⟩ := Pass.mk.inj h
  obtain rfl : text = cs := List.append_cancel_left htext
  rfl

namespace State

variable (st : State)

theorem substitutePass_nil : st.substitutePass [] = .kept [] := by
  rw [substitutePass]
  rfl

theorem substitutePass_escape (c : Char) (rest : List Char) :
    st.substitutePass ('\\' :: c :: rest) =
      if isMacroEscape c then (st.substitutePass rest).replace ['\\', c] (st.escapeText c)
      else (st.substitutePass rest).keep ['\\', c] := by
  rw [substitutePass]

theorem substitutePass_cons {c : Char} (hc : c ≠ '\\') (rest : List Char) :
    st.substitutePass (c :: rest) =
      if c == '\x7b' then
        match rest.dropWhile (fun c => !isBrace c) with
        | close :: _ =>
          if close == '\x7d' then
            let inner := rest.takeWhile fun c => !isBrace c
            (st.substitutePass (rest.drop (inner.length + 1))).replace
              ('\x7b' :: inner ++ ['\x7d']) (st.interpolate inner)
          else (st.substitutePass rest).keep [c]
        | [] => (st.substitutePass rest).keep [c]
      else (st.substitutePass rest).keep [c] :=
  substitutePass.eq_4 st c rest (fun h => absurd h hc) fun _ _ h => absurd h hc

theorem substitutePass_plain {c : Char} (hc : c ≠ '\\') (hb : c ≠ '\x7b') (rest : List Char) :
    st.substitutePass (c :: rest) = (st.substitutePass rest).keep [c] := by
  rw [st.substitutePass_cons hc, if_neg (by simpa using hb)]

/-- A run of plain text is kept. -/
theorem substitutePass_append {front : List Char} (h : ∀ c ∈ front, c ≠ '\\' ∧ c ≠ '\x7b')
    (rest : List Char) :
    st.substitutePass (front ++ rest) = (st.substitutePass rest).keep front := by
  induction front with
  | nil => rfl
  | cons c front ih =>
    obtain ⟨hc, hfront⟩ := List.forall_mem_cons.1 h
    rw [List.cons_append, st.substitutePass_plain hc.1 hc.2, ih hfront]
    rfl

/-- An opening brace is kept when the next brace does not close it. -/
theorem substitutePass_brace {rest : List Char}
    (h : ∀ inner tail, (∀ c ∈ inner, isBrace c = false) → rest ≠ inner ++ '\x7d' :: tail) :
    st.substitutePass ('\x7b' :: rest) = (st.substitutePass rest).keep ['\x7b'] := by
  rw [st.substitutePass_cons (by decide), if_pos (beq_self_eq_true _)]
  split
  · rename_i close tail hdrop
    split
    · rename_i hclose
      obtain rfl := beq_iff_eq.1 hclose
      refine absurd ?_ (h (rest.takeWhile fun c => !isBrace c) tail fun c hc => ?_)
      · rw [← hdrop, List.takeWhile_append_dropWhile]
      · simpa using List.mem_takeWhile_imp hc
    · rfl
  · rfl

end State

/-! ## What the lexer leaves -/

theorem countWhile_append_le {p : Char → Bool} {c : Char} (hc : p c = false)
    (front rest : List Char) : countWhile p (front ++ c :: rest) ≤ front.length := by
  unfold countWhile
  induction front with
  | nil => simp [hc]
  | cons d front ih =>
    rw [List.cons_append, List.takeWhile_cons]
    split
    · exact Nat.succ_le_succ ih
    · exact Nat.zero_le _

/-- The lexer closes an interpolation at the latest where the next brace closes it. -/
theorem isSome_contents_of_closed (pos : Nat) (inner tail : List Char)
    (h : ∀ c ∈ inner, isBrace c = false) :
    (contents .interpolation pos (inner ++ '\x7d' :: tail)).isSome := by
  match inner with
  | [] =>
    rw [List.nil_append, contents]
    rfl
  | c :: inner =>
    obtain ⟨hc, hinner⟩ := List.forall_mem_cons.1 h
    have hclosing : ¬ (c == Delimiter.interpolation.closing) = true := by
      intro hb
      rw [beq_iff_eq.1 hb] at hc
      exact absurd hc (by decide)
    have hopening : (c == '\x7b') = false := by
      rw [beq_eq_false_iff_ne]
      rintro rfl
      exact absurd hc (by decide)
    have hnext := isSome_contents_of_closed (pos + 1) inner tail hinner
    rw [List.cons_append, contents, if_neg hclosing]
    cases hm : nested .interpolation pos (c :: (inner ++ '\x7d' :: tail)) with
    | none =>
      dsimp only
      rw [hopening, Bool.and_false, if_neg Bool.false_ne_true]
      obtain ⟨⟨n, subs⟩, hn⟩ := Option.isSome_iff_exists.1 hnext
      rw [hn]
      rfl
    | some m =>
      obtain ⟨k, hk, hdrop⟩ : ∃ k, k ≤ inner.length ∧ m.length - 1 = k := by
        refine ⟨m.length - 1, ?_, rfl⟩
        unfold nested at hm
        rw [hopening, if_neg Bool.false_ne_true] at hm
        split at hm
        · cases inner with
          | nil => exact absurd (show none = some m from hm) (by simp)
          | cons e inner =>
            have hlength : m.length = 2 := by
              have hback : backslashed .interpolation e = some m := hm
              unfold backslashed at hback
              split at hback
              · exact Option.some.inj hback ▸ rfl
              · split at hback
                · exact Option.some.inj hback ▸ rfl
                · split at hback
                  · exact Option.some.inj hback ▸ rfl
                  · exact absurd hback (by simp)
            simp [hlength]
        · have hle := countWhile_append_le
            (p := fun c => !Delimiter.interpolation.endsText c) (c := '\x7d') (by decide)
            (c :: inner) tail
          rw [plainText_eq] at hm
          obtain ⟨-, rfl⟩ := ofLength_eq_some hm
          rw [List.length_cons, List.cons_append] at hle
          dsimp only
          omega
      have hrest := isSome_contents_of_closed (pos + m.length) (inner.drop k) tail fun c hc =>
        hinner c (List.mem_of_mem_drop hc)
      dsimp only
      rw [hdrop, List.drop_append_of_le_length hk]
      obtain ⟨⟨n, subs⟩, hn⟩ := Option.isSome_iff_exists.1 hrest
      rw [hn]
      rfl
termination_by inner.length
decreasing_by
  · exact Nat.lt_succ_self _
  · simp only [List.length_drop, List.length_cons]
    omega

/-- A match that has no replacement. -/
def SubMatch.IsPlain (s : SubMatch) : Prop :=
  s.kind ≠ .macroArgument ∧ s.kind ≠ .uniqueLabel ∧ s.kind ≠ .interpolation

theorem not_isMacroEscape_of_isEscaped {c : Char} (h : isEscaped c = true) :
    isMacroEscape c = false := by
  simp only [isEscaped, Bool.or_eq_true, beq_iff_eq] at h
  rcases h with ((((((((rfl | rfl) | rfl) | rfl) | rfl) | rfl) | rfl) | rfl) | rfl) | rfl <;> decide

/-- A character that a backslash does not take is neither escaped nor the name of an argument. -/
theorem escapes_nothing {e : Char} (h : backslashed .string e = none) :
    isEscaped e = false ∧ isMacroEscape e = false := by
  unfold backslashed at h
  split at h
  · exact absurd h (by simp)
  · rename_i hescaped
    split at h
    · exact absurd h (by simp)
    · rename_i hargument
      split at h
      · exact absurd h (by simp)
      · rename_i hunique
        refine ⟨by simpa using hescaped, ?_⟩
        rw [Bool.not_eq_true] at hargument hunique
        exact Bool.or_eq_false_iff.2 ⟨hargument, hunique⟩

/-- A plain match inside a string is kept by the evaluator, whatever follows it. -/
theorem State.substitutePass_nested (st : State) {pos : Nat} {cs : List Char} {m : Match}
    (h : nested .string pos cs = some m) (hplain : SubMatch.IsPlain ⟨m.kind, pos, m.length⟩)
    (rest : List Char) :
    st.substitutePass (cs.take m.length ++ rest) =
      (st.substitutePass rest).keep (cs.take m.length) := by
  match cs with
  | [] => exact absurd h (by simp [nested])
  | c :: tail =>
    -- By the first character. Interpolations and the escapes for macros are not plain, which
    -- leaves the other escapes and runs of plain characters.
    unfold nested at h
    split at h
    · split at h
      · obtain rfl := Option.some.inj h
        exact absurd rfl hplain.2.2
      · exact absurd h (by simp)
    · split at h
      · rename_i hc
        obtain rfl := beq_iff_eq.1 hc
        split at h
        · rename_i e tail
          unfold backslashed at h
          split at h
          · rename_i he
            obtain rfl := Option.some.inj h
            have hescape := not_isMacroEscape_of_isEscaped (Bool.and_eq_true_iff.1 he).2
            show st.substitutePass ('\\' :: e :: rest) = _
            rw [st.substitutePass_escape, hescape, if_neg Bool.false_ne_true]
            rfl
          · split at h
            · obtain rfl := Option.some.inj h
              exact absurd rfl hplain.1
            · split at h
              · obtain rfl := Option.some.inj h
                exact absurd rfl hplain.2.1
              · exact absurd h (by simp)
        · exact absurd h (by simp)
      · rw [plainText_eq] at h
        obtain ⟨-, rfl⟩ := ofLength_eq_some h
        apply st.substitutePass_append
        intro d hd
        have htake : (c :: tail).take (countWhile (fun c => !Delimiter.string.endsText c)
            (c :: tail)) = (c :: tail).takeWhile fun c => !Delimiter.string.endsText c :=
          (List.prefix_iff_eq_take.1 (List.takeWhile_prefix _)).symm
        rw [htake] at hd
        have hends := List.mem_takeWhile_imp hd
        constructor
        · rintro rfl
          exact absurd hends (by decide)
        · rintro rfl
          exact absurd hends (by decide)

/-- A character that no rule takes is kept too. -/
theorem State.substitutePass_unmatched (st : State) {pos n : Nat} {c : Char}
    {rest inner : List Char} (h : nested .string pos (c :: rest) = none)
    (hc : c ≠ Delimiter.string.closing)
    (hinner : rest.take n = inner ++ ['"']) (hkept : st.substitutePass inner = .kept inner) :
    st.substitutePass (c :: inner) = .kept (c :: inner) := by
  unfold nested at h
  split at h
  · rename_i hbrace
    obtain rfl := beq_iff_eq.1 hbrace
    rw [st.substitutePass_brace, hkept]
    · rfl
    intro text tail htext heq
    have hrest : rest = text ++ '\x7d' :: (tail ++ '"' :: rest.drop n) := by
      conv_lhs => rw [← List.take_append_drop n rest, hinner, heq]
      simp
    have hclosed := isSome_contents_of_closed (pos + 1) text (tail ++ '"' :: rest.drop n) htext
    rw [← hrest] at hclosed
    obtain ⟨found, hfound⟩ := Option.isSome_iff_exists.1 hclosed
    rw [hfound] at h
    exact absurd h (by simp)
  · split at h
    · rename_i hslash
      obtain rfl := beq_iff_eq.1 hslash
      cases inner with
      | nil =>
        rw [substitutePass]
        rfl
      | cons e inner =>
        cases rest with
        | nil => exact absurd hinner (by simp)
        | cons e' tail =>
          -- The character behind it begins no replacement, so it may be taken with the backslash.
          obtain rfl : e' = e := by
            cases n with
            | zero => exact absurd hinner (by simp)
            | succ n => exact (List.cons.inj hinner).1
          obtain ⟨hescaped, hmacro⟩ := escapes_nothing h
          have hplain : st.substitutePass (e' :: inner) = (st.substitutePass inner).keep [e'] := by
            apply st.substitutePass_plain
            · rintro rfl
              exact absurd hescaped (by decide)
            · rintro rfl
              exact absurd hescaped (by decide)
          have hinner' := Pass.eq_kept_of_keep [e'] (hplain.symm.trans hkept)
          rw [st.substitutePass_escape, hmacro, if_neg Bool.false_ne_true, hinner']
          rfl
    · rename_i hbrace hslash
      have hends : (!Delimiter.string.endsText c) = true := by
        simp only [beq_iff_eq] at hbrace hslash
        simp [Delimiter.endsText, hbrace, hslash, hc]
      rw [plainText_eq, countWhile, List.takeWhile_cons, if_pos hends] at h
      exact absurd h (by simp [ofLength])

/-- The text in front of the closing quote is kept by the evaluator when the lexer has found
nothing to replace in it. -/
theorem State.substitutePass_of_contents (st : State) {pos : Nat} {cs : List Char} {n : Nat}
    {subs : List SubMatch} (h : contents .string pos cs = some (n, subs))
    (hsubs : ∀ s ∈ subs, s.IsPlain) :
    ∃ inner, cs.take n = inner ++ ['"'] ∧ st.substitutePass inner = .kept inner := by
  match cs with
  | [] => exact absurd h (by simp [contents])
  | c :: rest =>
    rw [contents] at h
    split at h
    · rename_i hc
      obtain rfl := beq_iff_eq.1 hc
      obtain ⟨rfl, rfl⟩ := Prod.mk.inj (Option.some.inj h)
      exact ⟨[], rfl, st.substitutePass_nil⟩
    · rename_i hc
      split at h
      · rename_i m hm
        -- What the lexer has matched as a whole is kept as a whole, and then the rest is.
        have hcut := (fits_nested hm).whole
        have hdrop : rest.drop (m.length - 1) = (c :: rest).drop m.length := by
          rw [← Nat.succ_pred_eq_of_pos hcut.pos]
          rfl
        split at h
        · rename_i k more hmore
          obtain ⟨rfl, rfl⟩ := Prod.mk.inj (Option.some.inj h)
          rw [hdrop] at hmore
          obtain ⟨hm', hmore'⟩ := List.forall_mem_cons.1 (List.forall_mem_append.1 hsubs).2
          obtain ⟨inner, hinner, hkept⟩ := st.substitutePass_of_contents hmore hmore'
          refine ⟨(c :: rest).take m.length ++ inner, ?_, ?_⟩
          · rw [List.take_add, hinner, List.append_assoc]
          · rw [st.substitutePass_nested hm hm', hkept]
            rfl
        · exact absurd h (by simp)
      · rename_i hm
        split at h
        · exact absurd h (by simp)
        · split at h
          · rename_i k more hmore
            obtain ⟨rfl, rfl⟩ := Prod.mk.inj (Option.some.inj h)
            obtain ⟨inner, hinner, hkept⟩ := st.substitutePass_of_contents hmore hsubs
            refine ⟨c :: inner, by rw [List.take_succ_cons, hinner]; rfl, ?_⟩
            exact st.substitutePass_unmatched hm (by simpa using hc) hinner hkept
          · exact absurd h (by simp)
termination_by cs.length
decreasing_by
  · simp only [List.length_drop, List.length_cons]
    have := hcut.pos
    omega
  · exact Nat.lt_succ_self _

/-! ## String tokens -/

/-- Only one rule finds strings. -/
theorem delimited_of_mem_candidates {ctx : ScanContext} {pos : Nat} {cs : List Char} {m : Match}
    (h : some m ∈ candidates ctx pos cs) (hk : m.kind = .string) :
    delimited .string '"' .string pos cs = some m := by
  have hrule : ∀ {kind n}, some m = ofLength kind n → kind = .string := by
    intro kind n hm
    obtain ⟨-, rfl⟩ := ofLength_eq_some hm.symm
    exact hk
  simp only [candidates, List.mem_cons, List.not_mem_nil, or_false] at h
  rcases h with h | h | h | h | h | h | h | h | h | h | h | h | h | h | h | h | h | h | h
  case inr.inr.inr.inl => exact h.symm
  case inr.inr.inr.inr.inl => exact absurd (hk.symm.trans (kind_delimited h.symm)) (by decide)
  all_goals exact absurd (hrule h) (by decide)

/-- A piece of a line is the match at some place of the line. -/
theorem exists_piece (line : Nat) (cur : Cursor) (cs : List Char) :
    ∀ p ∈ piecesFrom line cur cs, ∃ (cur' : Cursor) (cs' : List Char),
      p = cur'.piece line (cur'.matchAt cs') cs' := by
  fun_induction piecesFrom line cur cs with
  | case1 cur =>
    intro p hp
    exact absurd hp (List.not_mem_nil)
  | case2 cur c rest m ih =>
    intro p hp
    rcases List.mem_cons.1 hp with rfl | hp
    · exact ⟨cur, c :: rest, rfl⟩
    · exact ih p hp

/-- A string is quoted, and the matches between the quotes belong to its piece. -/
theorem exists_contents_of_string (line : Nat) {cur : Cursor} {cs : List Char}
    (h : (cur.matchAt cs).kind = .string) :
    ∃ rest n subs, contents .string (cur.pos + 1) rest = some (n, subs) ∧
      (cur.piece line (cur.matchAt cs) cs).token.text = String.ofList ('"' :: rest.take n) ∧
      subs ⊆ (cur.piece line (cur.matchAt cs) cs).matched := by
  have hfound : delimited .string '"' .string cur.pos cs = some (cur.matchAt cs) := by
    unfold Cursor.matchAt at h ⊢
    cases hscan : scanTop cur.context cur.pos cs with
    | none =>
      rw [hscan] at h
      exact absurd h (by decide)
    | some m =>
      rw [hscan] at h
      exact delimited_of_mem_candidates (mem_candidates_of_scanTop hscan) h
  generalize cur.matchAt cs = m at hfound
  cases cs with
  | nil => exact absurd hfound (by simp [delimited])
  | cons c rest =>
    rw [delimited] at hfound
    split at hfound
    · rename_i hc
      obtain rfl := beq_iff_eq.1 hc
      obtain ⟨⟨n, subs⟩, hcontents, rfl⟩ := Option.map_eq_some_iff.1 hfound
      exact ⟨rest, n, subs, hcontents, rfl, List.subset_append_left _ _⟩
    · exact absurd hfound (by simp)

/-- Tokens are only changed to labels and macro calls. -/
theorem mem_of_retagged {ts ts' : List Token} (hr : List.Forall₂ Token.Retagged ts ts') {t : Token}
    (ht : t ∈ ts') (hlabel : t.kind ≠ .label) (hcall : t.kind ≠ .macroCall) : t ∈ ts := by
  induction hr with
  | nil => exact ht
  | cons hfirst _ ih =>
    rcases List.mem_cons.1 ht with rfl | ht
    · rcases hfirst with rfl | ⟨-, kind, rfl | rfl, rfl⟩
      · exact List.mem_cons_self
      · exact absurd rfl hlabel
      · exact absurd rfl hcall
    · exact List.mem_cons_of_mem _ (ih ht)

theorem unquote_quoted (inner : List Char) : unquote ('"' :: (inner ++ ['"'])) = inner := by
  simp [unquote]

namespace State

/-- A text that a pass keeps is only unescaped. -/
theorem expandString_of_kept (st : State) {inner : List Char}
    (h : st.substitutePass inner = .kept inner) :
    st.expandString (String.ofList ('"' :: (inner ++ ['"']))) =
      (String.ofList (unescape inner), []) := by
  have hsettle : ∀ left, st.settle left 0 inner = (inner, []) := by
    intro left
    rw [settle.eq_def, h]
    rfl
  rw [expandString, String.toList_ofList, unquote_quoted, hsettle]

/-- Strings in a line with nothing to replace have their text at once. -/
theorem expandString_of_exhausted {st : State} {line : Nat} {cs : List Char}
    (h : st.Exhausted line cs) {t : Token} (ht : t ∈ st.rawTokens line cs)
    (hk : t.kind = .string) :
    ∃ inner, t.text = String.ofList ('"' :: (inner ++ ['"'])) ∧
      st.expandString t.text = (String.ofList (unescape inner), []) := by
  -- Neither end of a line is a string, and no string becomes a label or a macro call.
  have hpiece : ∃ p ∈ piecesFrom line st.cursor cs, p.token = t := by
    have ht' := mem_of_retagged (retagged_classify _) ht
      (by rw [hk]; decide) (by rw [hk]; decide)
    rw [List.cons_append, List.mem_cons, List.mem_append, List.mem_singleton] at ht'
    rcases ht' with rfl | ht' | rfl
    · exact absurd hk (by simp [Token.start])
    · exact List.mem_map.1 ht'
    · exact absurd hk (by simp)
  obtain ⟨p, hp, rfl⟩ := hpiece
  obtain ⟨cur, cs', rfl⟩ := exists_piece line st.cursor cs p hp
  obtain ⟨rest, n, subs, hcontents, htext, hsubs⟩ := exists_contents_of_string line hk
  obtain ⟨before, behind, hsplit⟩ := List.append_of_mem hp
  have hplain : ∀ s ∈ subs, s.IsPlain := fun s hs =>
    (h before _ behind hsplit s (hsubs hs)).1
  obtain ⟨inner, hinner, hkept⟩ := st.substitutePass_of_contents hcontents hplain
  rw [hinner] at htext
  exact ⟨inner, htext, htext ▸ st.expandString_of_kept hkept⟩

/-- Strings are replaced once. Where a line is cut without a report, with a limit of at least one,
the evaluator finds nothing to replace or to report in any string of the line: it only resolves the
escapes of single characters between the quotes. -/
theorem strings_replaced_once (st : State) (line limit : Nat) (cs : List Char)
    (hlimit : 0 < limit) (hquiet : (st.tokensWithin line limit limit cs).2 = []) :
    ∀ t ∈ (st.tokensWithin line limit limit cs).1, t.kind = .string →
      ∃ inner, t.text = String.ofList ('"' :: (inner ++ ['"'])) ∧
        st.expandString t.text = (String.ofList (unescape inner), []) := by
  obtain ⟨n, last, -, -, htokens, hexhausted⟩ := st.exists_replaces line limit limit cs
  intro t ht hk
  rw [htokens] at ht
  exact expandString_of_exhausted (hexhausted hlimit hquiet) ht hk

theorem strings_replaced_once_greetingLine :
    (greetingState.tokensWithin 1 6 6 greetingLine).2 = [] ∧
      ∃ t ∈ (greetingState.tokensWithin 1 6 6 greetingLine).1, t.kind = .string ∧
        ∃ inner, t.text = String.ofList ('"' :: (inner ++ ['"'])) ∧
          String.ofList (unescape inner) = "all of you\n" ∧
          greetingState.expandString t.text = (String.ofList (unescape inner), []) := by
  have hfound : ((greetingState.tokensWithin 1 6 6 greetingLine).1.any fun t =>
      t.kind == .string && t.text == "\"all of you\\n\"") = true := by
    decide +kernel
  obtain ⟨t, ht, hfound⟩ := List.any_eq_true.1 hfound
  obtain ⟨hk, htext⟩ := Bool.and_eq_true_iff.1 hfound
  obtain ⟨inner, hinner, hexpand⟩ := greetingState.strings_replaced_once 1 6 greetingLine
    (by decide) quiet_greetingLine t ht (beq_iff_eq.1 hk)
  refine ⟨quiet_greetingLine, t, ht, beq_iff_eq.1 hk, inner, hinner, ?_, hexpand⟩
  have hchars := congrArg String.toList (hinner.symm.trans (beq_iff_eq.1 htext))
  rw [String.toList_ofList] at hchars
  have hquoted : inner ++ ['"'] = "all of you\\n".toList ++ ['"'] := (List.cons.inj hchars).2
  rw [List.append_cancel_right hquoted]
  rfl

end State

end Sm83Asm
