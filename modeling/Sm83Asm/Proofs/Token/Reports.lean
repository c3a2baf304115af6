import Mathlib.Data.List.Nodup
import Sm83Asm.Proofs.Text
import Sm83Asm.Proofs.Token.Bounds
import Sm83Asm.Token.Stream

set_option autoImplicit false

/-!
# Where the lexer reports

No two matches of a line begin at the same place: a match inside another one begins behind its
opening delimiter, and what follows begins behind its end. So the text of a line that cannot be
replaced is reported at different columns, once each, and the report that the limit of replacements
is reached stands alone.

Main statement: `nodup_columns_tokenize`.
-/

namespace Sm83Asm

/-! ## Places of matches -/

/-- Matches that begin at different places between two bounds. -/
structure Spread (lo hi : Nat) (matched : List SubMatch) : Prop where
  distinct : (matched.map SubMatch.start).Nodup
  within : ∀ m ∈ matched, lo ≤ m.start ∧ m.start < hi

namespace Spread

variable {lo mid hi : Nat} {a b : List SubMatch}

theorem nil : Spread lo hi [] := ⟨List.nodup_nil, by simp⟩

theorem append (h : Spread lo mid a) (h' : Spread mid hi b) (hlo : lo ≤ mid) (hhi : mid ≤ hi) :
    Spread lo hi (a ++ b) := by
  constructor
  · rw [List.map_append]
    refine h.distinct.append h'.distinct ?_
    intro start hs hs'
    obtain ⟨m, hm, rfl⟩ := List.mem_map.1 hs
    obtain ⟨m', hm', heq⟩ := List.mem_map.1 hs'
    have hleft := (h.within m hm).2
    have hright := (h'.within m' hm').1
    omega
  · intro m hm
    rcases List.mem_append.1 hm with hm | hm
    · have := h.within m hm
      omega
    · have := h'.within m hm
      omega

theorem mono (h : Spread lo hi a) {lo' hi' : Nat} (hlo : lo' ≤ lo) (hhi : hi ≤ hi') :
    Spread lo' hi' a :=
  ⟨h.distinct, fun m hm => ⟨Nat.le_trans hlo (h.within m hm).1,
    Nat.lt_of_lt_of_le (h.within m hm).2 hhi⟩⟩

/-- The matches inside a match, and the match itself. -/
theorem concat (h : Spread (lo + 1) hi a) (hlo : lo < hi) {m : SubMatch} (hm : m.start = lo) :
    Spread lo hi (a ++ [m]) := by
  constructor
  · rw [List.map_append]
    refine h.distinct.append (List.nodup_singleton _) ?_
    intro start hs hs'
    obtain ⟨m', hm', rfl⟩ := List.mem_map.1 hs
    have hin := (h.within m' hm').1
    have heq := List.mem_singleton.1 hs'
    omega
  · intro m' hm'
    rcases List.mem_append.1 hm' with hm' | hm'
    · have := h.within m' hm'
      omega
    · rw [List.mem_singleton.1 hm']
      omega

end Spread

mutual

/-- The matches inside a match begin behind its first character. -/
theorem spread_nested {d : Delimiter} {pos : Nat} {cs : List Char} {m : Match}
    (h : nested d pos cs = some m) : Spread (pos + 1) (pos + m.length) m.subs := by
  match cs with
  | [] => exact absurd h (by simp [nested])
  | c :: rest =>
    -- Only an interpolation has matches inside; escapes and plain text have none.
    unfold nested at h
    split at h
    · split at h
      · rename_i n subs hcontents
        obtain rfl := Option.some.inj h
        have hcontents := spread_contents hcontents
        rwa [Nat.add_right_comm] at hcontents
      · exact absurd h (by simp)
    · split at h
      · split at h
        · unfold backslashed at h
          split at h
          · obtain rfl := Option.some.inj h
            exact .nil
          · split at h
            · obtain rfl := Option.some.inj h
              exact .nil
            · split at h
              · obtain rfl := Option.some.inj h
                exact .nil
              · exact absurd h (by simp)
        · exact absurd h (by simp)
      · unfold plainText at h
        split at h
        · exact absurd h (by simp)
        · obtain rfl := Option.some.inj h
          exact .nil
termination_by 2 * cs.length

/-- The matches between delimiters begin at different places between them. -/
theorem spread_contents {d : Delimiter} {pos : Nat} {cs : List Char} {n : Nat}
    {subs : List SubMatch} (h : contents d pos cs = some (n, subs)) :
    Spread pos (pos + n) subs := by
  match cs with
  | [] => exact absurd h (by simp [contents])
  | c :: rest =>
    rw [contents] at h
    split at h
    · obtain ⟨rfl, rfl⟩ := Prod.mk.inj (Option.some.inj h)
      exact .nil
    · split at h
      · rename_i m hm
        have hpos := (fits_nested hm).whole.pos
        split at h
        · rename_i k more hmore
          obtain ⟨rfl, rfl⟩ := Prod.mk.inj (Option.some.inj h)
          rw [List.append_cons, ← Nat.add_assoc]
          exact ((spread_nested hm).concat (by omega) rfl).append (spread_contents hmore)
            (by omega) (by omega)
        · exact absurd h (by simp)
      · split at h
        · exact absurd h (by simp)
        · split at h
          · rename_i k more hmore
            obtain ⟨rfl, rfl⟩ := Prod.mk.inj (Option.some.inj h)
            exact (spread_contents hmore).mono (Nat.le_succ pos) (by omega)
          · exact absurd h (by simp)
termination_by 2 * cs.length + 1
decreasing_by
  all_goals simp only [List.length_cons, List.length_drop]; omega

end

theorem spread_delimited {kind : TokenKind} {opening : Char} {d : Delimiter} {pos : Nat}
    {cs : List Char} {m : Match} (h : delimited kind opening d pos cs = some m) :
    Spread (pos + 1) (pos + m.length) m.subs := by
  unfold delimited at h
  split at h
  · exact absurd h (by simp)
  · split at h
    · obtain ⟨⟨n, subs⟩, hcontents, rfl⟩ := Option.map_eq_some_iff.1 h
      have hcontents := spread_contents hcontents
      rwa [Nat.add_right_comm] at hcontents
    · exact absurd h (by simp)

theorem spread_of_mem_candidates {ctx : ScanContext} {pos : Nat} {cs : List Char} {m : Match}
    (h : some m ∈ candidates ctx pos cs) : Spread (pos + 1) (pos + m.length) m.subs := by
  have hrule : ∀ {kind n}, some m = ofLength kind n →
      Spread (pos + 1) (pos + m.length) m.subs := by
    intro kind n hm
    obtain ⟨-, rfl⟩ := ofLength_eq_some hm.symm
    exact .nil
  simp only [candidates, List.mem_cons, List.not_mem_nil, or_false] at h
  rcases h with h | h | h | h | h | h | h | h | h | h | h | h | h | h | h | h | h | h | h
  case inr.inr.inr.inl => exact spread_delimited h.symm
  case inr.inr.inr.inr.inl => exact spread_delimited h.symm
  all_goals exact hrule h

/-- A piece and everything matched in it. -/
theorem Cursor.spread_piece (cur : Cursor) (line : Nat) {cs : List Char} (hne : cs ≠ []) :
    Spread cur.pos (cur.pos + (cur.matchAt cs).length)
      (cur.piece line (cur.matchAt cs) cs).matched := by
  have hpos := (cur.fits_matchAt hne).whole.pos
  refine Spread.concat ?_ (by omega) rfl
  unfold Cursor.matchAt
  cases h : scanTop cur.context cur.pos cs with
  | some m => exact spread_of_mem_candidates (mem_candidates_of_scanTop h)
  | none => exact .nil

/-- All matches in the rest of a line begin at different places in it. -/
theorem spread_piecesFrom (line : Nat) (cur : Cursor) (cs : List Char) :
    Spread cur.pos (cur.pos + cs.length) ((piecesFrom line cur cs).flatMap Piece.matched) := by
  fun_induction piecesFrom line cur cs with
  | case1 cur => exact .nil
  | case2 cur c rest m ih =>
    have hcut := (cur.fits_matchAt (List.cons_ne_nil c rest)).whole
    have hpos : 0 < m.length := hcut.pos
    have hle : m.length ≤ (c :: rest).length := hcut.le
    rw [List.length_cons] at hle
    rw [List.flatMap_cons]
    refine (cur.spread_piece line (List.cons_ne_nil c rest)).append (ih.mono (Nat.le_refl _) ?_)
      (Nat.le_add_right _ _) ?_
    · show cur.pos + m.length + (rest.drop (m.length - 1)).length ≤ _
      rw [List.length_drop, List.length_cons]
      omega
    · show cur.pos + m.length ≤ _
      rw [List.length_cons]
      omega

/-! ## Reports -/

/-- The column of a report. -/
def Report.column? (r : Report) : Option Nat := r.token.map Token.column

namespace State

variable (st : State) (line : Nat) (whole : List Char)

/-- Reports stand at the starts of matches, in their order. -/
theorem columns_failuresFrom (pieces : List Piece) : ∀ seen : List Token,
    ((st.failuresFrom line whole seen pieces).map Report.column?).Sublist
      ((pieces.flatMap Piece.matched).map fun m =>
        some (Text.byteLength (whole.take m.start))) := by
  have hpiece : ∀ (seen : List Token) (matched : List SubMatch),
      ((st.failuresIn line whole seen matched).map Report.column?).Sublist
        (matched.map fun m => some (Text.byteLength (whole.take m.start))) := by
    intro seen matched
    induction matched with
    | nil => exact .slnil
    | cons m matched ih =>
      unfold failuresIn at ih ⊢
      rw [List.filterMap_cons, List.map_cons]
      split
      · exact ih.cons _
      · rename_i r hr
        dsimp only at hr
        split at hr
        · obtain rfl := Option.some.inj hr
          exact ih.cons_cons _
        · exact absurd hr (by simp)
  induction pieces with
  | nil => exact fun _ => .slnil
  | cons p ps ih =>
    intro seen
    rw [failuresFrom, List.map_append, List.flatMap_cons, List.map_append]
    exact (hpiece seen p.matched).append (ih _)

theorem nodup_columns_failuresFrom (seen : List Token) (cur : Cursor) (hcur : cur.pos = 0) :
    ((st.failuresFrom line whole seen (piecesFrom line cur whole)).map Report.column?).Nodup := by
  have hspread := spread_piecesFrom line cur whole
  rw [hcur, Nat.zero_add] at hspread
  have hstarts : (((piecesFrom line cur whole).flatMap Piece.matched).map SubMatch.start).map
      (fun n => some (Text.byteLength (whole.take n))) =
        ((piecesFrom line cur whole).flatMap Piece.matched).map fun m =>
          some (Text.byteLength (whole.take m.start)) := List.map_map
  refine List.Nodup.sublist (st.columns_failuresFrom line whole _ seen) ?_
  rw [← hstarts]
  refine List.Nodup.map_on ?_ hspread.distinct
  intro a ha b hb heq
  obtain ⟨m, hm, rfl⟩ := List.mem_map.1 ha
  obtain ⟨m', hm', rfl⟩ := List.mem_map.1 hb
  have hbytes := Option.some.inj heq
  -- Further to the right there are more bytes in front.
  rcases Nat.lt_trichotomy m.start m'.start with hlt | heq | hlt
  · have := Text.byteLength_take_lt hlt (Nat.le_of_lt (hspread.within m' hm').2)
    omega
  · exact heq
  · have := Text.byteLength_take_lt hlt (Nat.le_of_lt (hspread.within m hm).2)
    omega

/-- The lexer reports what the last pass cannot replace, or only that the limit is reached. -/
theorem reports_tokenize : (st.tokenize line whole).2 = [] ∨
    (∃ last, (st.tokenize line whole).2 =
      st.failuresFrom line last [.start line] (piecesFrom line st.cursor last)) ∨
    (st.tokenize line whole).2 =
      [.lexical (.substitutionLimit st.config.maxSubstitutions) (.start line)] := by
  have hwithin : ∀ limit left cs, (st.tokensWithin line limit left cs).2 = [] ∨
      (∃ last, (st.tokensWithin line limit left cs).2 =
        st.failuresFrom line last [.start line] (piecesFrom line st.cursor last)) ∨
      (st.tokensWithin line limit left cs).2 =
        [.lexical (.substitutionLimit limit) (.start line)] := by
    intro limit left
    induction left with
    | zero => exact fun cs => .inl rfl
    | succ left ih =>
      intro cs
      rw [tokensWithin]
      cases hlex : st.lex line true cs with
      | final tokens reports =>
        unfold lex at hlex
        rw [if_pos rfl] at hlex
        split at hlex
        · exact absurd hlex (by simp)
        · cases hlex
          exact .inr (.inl ⟨cs, rfl⟩)
      | expanded next =>
        dsimp only
        split
        · rename_i hleft
          rw [beq_iff_eq.1 hleft]
          exact .inr (.inr rfl)
        · exact ih next
  exact hwithin _ _ _

/-- The lexer reports at every column at most once. -/
theorem nodup_columns_tokenize :
    ((st.tokenize line whole).2.map Report.column?).Nodup := by
  rcases st.reports_tokenize line whole with hnone | ⟨last, hfailures⟩ | hlimit
  · rw [hnone]
    exact List.nodup_nil
  · rw [hfailures]
    exact st.nodup_columns_failuresFrom line last _ _ rfl
  · rw [hlimit]
    exact List.nodup_singleton _

theorem stage_of_mem_failuresFrom (pieces : List Piece) : ∀ seen : List Token,
    ∀ r ∈ st.failuresFrom line whole seen pieces, r.cause.stage = .lexer := by
  induction pieces with
  | nil => exact fun _ _ hr => absurd hr List.not_mem_nil
  | cons p ps ih =>
    intro seen r hr
    rcases List.mem_append.1 hr with hr | hr
    · obtain ⟨m, -, hm⟩ := List.mem_filterMap.1 hr
      dsimp only at hm
      split at hm
      · obtain rfl := Option.some.inj hm
        rfl
      · exact absurd hm (by simp)
    · exact ih _ r hr

/-- What the lexer reports belongs to its stage. -/
theorem stage_of_mem_tokenize {r : Report} (h : r ∈ (st.tokenize line whole).2) :
    r.cause.stage = .lexer := by
  rcases st.reports_tokenize line whole with hnone | ⟨last, hfailures⟩ | hlimit
  · rw [hnone] at h
    exact absurd h List.not_mem_nil
  · rw [hfailures] at h
    exact st.stage_of_mem_failuresFrom line last _ _ r h
  · rw [hlimit] at h
    rw [List.mem_singleton.1 h]
    rfl

end State

end Sm83Asm
