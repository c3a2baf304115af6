import Sm83Asm.Proofs.Eval.Gate
import Sm83Asm.Proofs.Token.Covering

set_option autoImplicit false

/-!
# Tokens behind the gate of the extensions

A line is cut into the same tokens with every setting of the extensions, as long as none of them is
a word of the extensions and no text in them is replaced by the counter of the expansions. What is
cut off on the way counts as well: a line is cut anew after each replacement.

Main statements: `tokensWithin_gated` and `isPlain_of_mem_tokensWithin`.
-/

namespace Sm83Asm

/-! ## What is cut off -/

/-- A token that is cut off a line, and the names that are looked up to replace text in it. -/
structure Cut where
  token : Token
  lookups : List String

/-- Neither a word of the extensions nor replaced by the counter of the expansions. -/
def Cut.IsPlain (cut : Cut) : Prop := cut.token.IsPlain ∧ counterName ∉ cut.lookups

/-- The names that a match looks up to find its text. -/
def substitutionLookups (kind : TokenKind) (text : List Char) : List String :=
  match kind with
  | .interpolation => [interpolatedName text.tail.dropLast]
  | _ => []

namespace State

/-- The names that matches look up, up to the first one that is replaced. -/
def lookupsIn (st : State) (whole : List Char) (seen : List Token) : List SubMatch → List String
  | [] => []
  | m :: ms =>
    substitutionLookups m.kind (m.slice whole) ++
      match st.substitution seen m.kind (m.slice whole) with
      | some (.ok _) => []
      | _ => st.lookupsIn whole seen ms

/-- What is cut off the rest of a line, up to the first token in which something is replaced. -/
def cutsFrom (st : State) (line : Nat) (whole : List Char) (seen : List Token) (cur : Cursor)
    (cs : List Char) : List Cut :=
  match cs with
  | [] => []
  | c :: rest =>
    let m := cur.matchAt (c :: rest)
    let piece := cur.piece line m (c :: rest)
    ⟨piece.token, st.lookupsIn whole seen piece.matched⟩ ::
      match st.expandIn? whole seen piece.matched with
      | some _ => []
      | none =>
        st.cutsFrom line whole (piece.token :: seen) (cur.advance m (c :: rest))
          (rest.drop (m.length - 1))
termination_by cs.length

/-- What is cut off a line as it is written. -/
def rawCuts (st : State) (line : Nat) (cs : List Char) : List Cut :=
  (piecesFrom line st.cursor cs).map fun p => ⟨p.token, []⟩

/-- What is cut off a line in all, with at most `left` replacements. -/
def cutsWithin (st : State) (line : Nat) : Nat → List Char → List Cut
  | 0, cs => st.rawCuts line cs
  | left + 1, cs =>
    st.cutsFrom line cs [.start line] st.cursor cs ++
      match st.expandFrom? line cs [.start line] st.cursor cs with
      | some next => st.cutsWithin line left next
      | none => []

end State

/-! ## Matching -/

/-- The place in a line with another setting of the extensions. -/
def Cursor.gated (cur : Cursor) (extensions : Bool) : Cursor :=
  { cur with context := { cur.context with extensions } }

/-- Two matches to beat that both are beaten make no difference. -/
theorem foldl_longer_of_beaten {found : List (Option Match)} {best best' : Option Match}
    (h : matchedLength best < matchedLength (found.foldl longer best))
    (h' : matchedLength best' < matchedLength (found.foldl longer best)) :
    found.foldl longer best' = found.foldl longer best := by
  induction found generalizing best best' with
  | nil => exact absurd h (Nat.lt_irrefl _)
  | cons m found ih =>
    rw [List.foldl_cons] at h h' ⊢
    rw [List.foldl_cons]
    have hle := (matchedLength_le_foldl found (longer best m)).1
    rw [matchedLength_longer] at hle
    by_cases hm : matchedLength m < matchedLength (found.foldl longer (longer best m))
    · apply ih
      · rw [matchedLength_longer]
        omega
      · rw [matchedLength_longer]
        omega
    · have hwins : ∀ {b : Option Match}, matchedLength b < matchedLength m → longer b m = m := by
        intro b hlt
        cases b with
        | none => cases m <;> rfl
        | some b =>
          cases m with
          | none => exact absurd hlt (Nat.not_lt_zero _)
          | some m => exact if_pos hlt
      rw [hwins (b := best) (by omega), hwins (b := best') (by omega)]

/-- A match that is shorter than the longest can be left out or put in. -/
theorem foldl_longer_insert {front back : List (Option Match)} {k k' : Option Match} {n : Nat}
    (hk : matchedLength k ≤ n) (hk' : matchedLength k' ≤ n)
    (h : n < matchedLength ((front ++ k :: back).foldl longer none)) :
    (front ++ k' :: back).foldl longer none = (front ++ k :: back).foldl longer none := by
  rw [List.foldl_append, List.foldl_cons] at h ⊢
  rw [List.foldl_append, List.foldl_cons]
  by_cases hfront : matchedLength (front.foldl longer none) ≤ n
  · apply foldl_longer_of_beaten
    · rw [matchedLength_longer]
      omega
    · rw [matchedLength_longer]
      omega
  · have hstays : ∀ {m : Option Match}, matchedLength m ≤ n →
        longer (front.foldl longer none) m = front.foldl longer none := by
      intro m hle
      cases hbest : front.foldl longer none with
      | none =>
        rw [hbest] at hfront
        exact absurd (Nat.zero_le n) hfront
      | some best =>
        rw [hbest] at hfront
        cases m with
        | none => rfl
        | some m =>
          have hloses : ¬ best.length < m.length := by
            intro hlt
            exact hfront (Nat.le_of_lt (Nat.lt_of_lt_of_le hlt hle))
          exact if_neg hloses
    rw [hstays hk, hstays hk']

theorem candidates_eq (ctx : ScanContext) (pos : Nat) (cs : List Char) :
    candidates ctx pos cs = (candidates ctx pos cs).take 8 ++
      ofLength .keyword (keywordLength ctx cs) :: (candidates ctx pos cs).drop 9 := rfl

theorem matchedLength_ofLength (kind : TokenKind) (n : Nat) :
    matchedLength (ofLength kind n) = n := by
  cases n with
  | zero => rfl
  | succ n => rfl

/-- The word at the head of a text is its first characters. -/
theorem headWord_eq_take (cs : List Char) :
    headWord cs = String.ofList (cs.take (countWhile Text.isWordChar cs)) := by
  unfold headWord countWhile
  rw [← List.prefix_iff_eq_take.1 (List.takeWhile_prefix _)]

/-- The rule for keywords finds the same with every setting, or a word of the extensions with some
and nothing with others. -/
theorem keywordLength_gated (ctx : ScanContext) (x : Bool) (cs : List Char) :
    keywordLength { ctx with extensions := x } cs = keywordLength ctx cs ∨
      Text.upper (headWord cs) ∈ extensionWords ∧ BeginsWithLetter cs := by
  unfold keywordLength
  cases hword : Keyword.ofWord? (headWord cs) with
  | none => exact Or.inl rfl
  | some keyword =>
    cases hx : keyword.isExtension with
    | false => exact Or.inl (by simp only [hx, Bool.not_false, Bool.or_true])
    | true =>
      refine Or.inr ⟨?_, beginsWithLetter_of_headWord (beginsWithLetter_of_keyword hword)⟩
      have hname : keyword.name = Text.upper (headWord cs) := by
        simpa using List.find?_some hword
      rw [← hname]
      exact Keyword.name_mem_extensionWords hx

/-- The longest match is the same with every setting, unless it is a word of the extensions. -/
theorem scanTop_gated (ctx : ScanContext) (x : Bool) (pos : Nat) (cs : List Char)
    (h : ∀ m, scanTop ctx pos cs = some m →
      Text.upper (String.ofList (cs.take m.length)) ∉ extensionWords) :
    scanTop { ctx with extensions := x } pos cs = scanTop ctx pos cs := by
  -- Only the rule for keywords looks at the setting.
  have hfront : (candidates { ctx with extensions := x } pos cs).take 8 =
      (candidates ctx pos cs).take 8 := by
    simp only [candidates, List.take_succ_cons, List.take_zero]
    rfl
  have hback : (candidates { ctx with extensions := x } pos cs).drop 9 =
      (candidates ctx pos cs).drop 9 := by
    simp only [candidates, List.drop_succ_cons, List.drop_zero]
  unfold scanTop at h ⊢
  rw [candidates_eq ctx] at h ⊢
  rw [candidates_eq { ctx with extensions := x }, hfront, hback]
  rcases keywordLength_gated ctx x cs with hsame | ⟨hword, hletter⟩
  · rw [hsame]
  · -- The word loses to an identifier that goes on behind it, or it is the match itself.
    apply foldl_longer_insert (n := countWhile Text.isWordChar cs)
    · rw [matchedLength_ofLength]
      exact keywordLength_le _ cs
    · rw [matchedLength_ofLength]
      exact keywordLength_le _ cs
    · rw [← candidates_eq] at h ⊢
      have hle : countWhile Text.isWordChar cs ≤
          matchedLength ((candidates ctx pos cs).foldl longer none) := by
        have hidentifier := (matchedLength_le_foldl (candidates ctx pos cs) none).2
          (ofLength .identifier (identifierLength cs)) (by simp [candidates])
        rw [matchedLength_ofLength] at hidentifier
        have hletters := countWhile_le_identifierLength hletter
        have hchars := countWhile_word_le cs
        omega
      refine Nat.lt_of_le_of_ne hle ?_
      intro heq
      rw [headWord_eq_take, heq] at hword
      cases hm : (candidates ctx pos cs).foldl longer none with
      | none =>
        rw [hm, show matchedLength none = 0 from rfl, List.take_zero] at hword
        exact absurd hword (by decide)
      | some m =>
        rw [hm] at hword
        exact h m hm hword

namespace Cursor

variable (cur : Cursor) (x : Bool)

theorem matchAt_gated {line : Nat} {cs : List Char}
    (h : (cur.piece line (cur.matchAt cs) cs).token.IsPlain) :
    (cur.gated x).matchAt cs = cur.matchAt cs := by
  have hscan : scanTop { cur.context with extensions := x } cur.pos cs =
      scanTop cur.context cur.pos cs := by
    apply scanTop_gated
    intro m hm
    rw [matchAt, hm] at h
    exact h
  exact congrArg (Option.getD · _) hscan

theorem advance_gated (m : Match) (cs : List Char) :
    (cur.gated x).advance m cs = (cur.advance m cs).gated x := by
  unfold advance
  cases m.kind.isTrivia || m.kind == .comment with
  | true => rfl
  | false => rfl

end Cursor

theorem piecesFrom_gated {line : Nat} {cur : Cursor} (x : Bool) {cs : List Char}
    (h : ∀ p ∈ piecesFrom line cur cs, p.token.IsPlain) :
    piecesFrom line (cur.gated x) cs = piecesFrom line cur cs := by
  fun_induction piecesFrom line cur cs with
  | case1 => simp only [piecesFrom]
  | case2 cur c rest m ih =>
    obtain ⟨hm, hrest⟩ := List.forall_mem_cons.1 h
    have hmatch : (cur.gated x).matchAt (c :: rest) = m := cur.matchAt_gated x hm
    rw [piecesFrom]
    simp only [hmatch, cur.advance_gated x, ih hrest]
    rfl

namespace State

variable {st : State} (c x : Bool)

theorem cursor_gated : (st.gated c x).cursor = st.cursor.gated x := rfl

/-! ## Replacing text -/

theorem substitution_gated (seen : List Token) {kind : TokenKind} {text : List Char}
    (h : counterName ∉ substitutionLookups kind text) :
    (st.gated c x).substitution seen kind text = st.substitution seen kind text := by
  cases kind with
  | interpolation =>
    have hname : interpolatedName text.tail.dropLast ≠ counterName := by
      intro hname
      exact h (by simp [substitutionLookups, hname])
    simp only [substitution, interpolate_gated c x hname]
  | _ => rfl

theorem expandIn?_gated {whole : List Char} {seen : List Token} {matched : List SubMatch}
    (h : counterName ∉ st.lookupsIn whole seen matched) :
    (st.gated c x).expandIn? whole seen matched = st.expandIn? whole seen matched := by
  unfold expandIn?
  induction matched with
  | nil => rfl
  | cons m ms ih =>
    rw [lookupsIn, List.mem_append, not_or] at h
    rw [List.findSome?_cons, List.findSome?_cons, substitution_gated c x seen h.1]
    rcases hs : st.substitution seen m.kind (m.slice whole) with _ | _ | text
    · rw [hs] at h
      exact ih h.2
    · rw [hs] at h
      exact ih h.2
    · rfl

/-- Where nothing is replaced, every match looks up what it has to. -/
theorem not_mem_substitutionLookups {whole : List Char} {seen : List Token}
    {matched : List SubMatch} (h : counterName ∉ st.lookupsIn whole seen matched)
    (hnone : st.expandIn? whole seen matched = none) :
    ∀ m ∈ matched, counterName ∉ substitutionLookups m.kind (m.slice whole) := by
  unfold expandIn? at hnone
  induction matched with
  | nil => simp
  | cons m ms ih =>
    rw [lookupsIn, List.mem_append, not_or] at h
    rw [List.findSome?_cons] at hnone
    refine List.forall_mem_cons.2 ⟨h.1, ?_⟩
    rcases hs : st.substitution seen m.kind (m.slice whole) with _ | _ | text
    · rw [hs] at h hnone
      exact ih h.2 hnone
    · rw [hs] at h hnone
      exact ih h.2 hnone
    · rw [hs] at hnone
      exact absurd hnone (by simp)

theorem failuresIn_gated {whole : List Char} {seen : List Token} {matched : List SubMatch}
    (line : Nat) (h : counterName ∉ st.lookupsIn whole seen matched)
    (hnone : st.expandIn? whole seen matched = none) :
    (st.gated c x).failuresIn line whole seen matched =
      st.failuresIn line whole seen matched := by
  have hplain := not_mem_substitutionLookups h hnone
  apply List.filterMap_congr
  intro m hm
  simp only [substitution_gated c x seen (hplain m hm)]

variable {line : Nat} {whole : List Char}

theorem expandFrom?_gated {seen : List Token} {cur : Cursor} {cs : List Char}
    (h : ∀ cut ∈ st.cutsFrom line whole seen cur cs, cut.IsPlain) :
    (st.gated c x).expandFrom? line whole seen (cur.gated x) cs =
      st.expandFrom? line whole seen cur cs := by
  fun_induction cutsFrom st line whole seen cur cs with
  | case1 => simp only [expandFrom?]
  | case2 seen cur d rest m piece ih =>
    obtain ⟨hcut, hrest⟩ := List.forall_mem_cons.1 h
    have hmatch : (cur.gated x).matchAt (d :: rest) = m := cur.matchAt_gated x hcut.1
    have hpiece : (cur.gated x).piece = cur.piece := rfl
    rw [expandFrom?, expandFrom?]
    simp only [hmatch, hpiece, cur.advance_gated x]
    rw [expandIn?_gated c x hcut.2]
    cases hs : st.expandIn? whole seen piece.matched with
    | some next => rfl
    | none =>
      rw [hs] at hrest
      exact ih hrest

/-- Where nothing is replaced, the whole line is cut. -/
theorem tokens_cutsFrom {seen : List Token} {cur : Cursor} {cs : List Char}
    (hnone : st.expandFrom? line whole seen cur cs = none) :
    (st.cutsFrom line whole seen cur cs).map Cut.token =
      (piecesFrom line cur cs).map Piece.token := by
  fun_induction cutsFrom st line whole seen cur cs with
  | case1 => simp only [piecesFrom, List.map_nil]
  | case2 seen cur d rest m piece ih =>
    rw [expandFrom?] at hnone
    rw [piecesFrom]
    cases hs : st.expandIn? whole seen piece.matched with
    | some next =>
      have hs' : st.expandIn? whole seen (cur.piece line (cur.matchAt (d :: rest))
        (d :: rest)).matched = some next := hs
      simp only [hs'] at hnone
      exact absurd hnone (by simp)
    | none =>
      have hs' : st.expandIn? whole seen (cur.piece line (cur.matchAt (d :: rest))
        (d :: rest)).matched = none := hs
      simp only [hs'] at hnone
      exact congrArg (piece.token :: ·) (ih hnone)

theorem failuresFrom_gated {seen : List Token} {cur : Cursor} {cs : List Char}
    (h : ∀ cut ∈ st.cutsFrom line whole seen cur cs, cut.IsPlain)
    (hnone : st.expandFrom? line whole seen cur cs = none) :
    (st.gated c x).failuresFrom line whole seen (piecesFrom line cur cs) =
      st.failuresFrom line whole seen (piecesFrom line cur cs) := by
  fun_induction cutsFrom st line whole seen cur cs with
  | case1 => simp only [piecesFrom, failuresFrom]
  | case2 seen cur d rest m piece ih =>
    obtain ⟨hcut, hrest⟩ := List.forall_mem_cons.1 h
    rw [expandFrom?] at hnone
    rw [piecesFrom, failuresFrom, failuresFrom]
    cases hs : st.expandIn? whole seen piece.matched with
    | some next =>
      have hs' : st.expandIn? whole seen (cur.piece line (cur.matchAt (d :: rest))
        (d :: rest)).matched = some next := hs
      simp only [hs'] at hnone
      exact absurd hnone (by simp)
    | none =>
      have hs' : st.expandIn? whole seen (cur.piece line (cur.matchAt (d :: rest))
        (d :: rest)).matched = none := hs
      simp only [hs'] at hnone
      rw [hs] at hrest
      rw [failuresIn_gated c x line hcut.2 hs, ih hrest hnone]

/-! ## Tokens of a line -/

/-- Labels and macro calls are spelled as the identifiers that they were. -/
theorem isPlain_of_retagged {ts ts' : List Token} (hr : List.Forall₂ Token.Retagged ts ts')
    (h : ∀ t ∈ ts, t.IsPlain) : ∀ t ∈ ts', t.IsPlain := by
  induction hr with
  | nil => exact h
  | cons ht _ ih =>
    obtain ⟨hfirst, hrest⟩ := List.forall_mem_cons.1 h
    refine List.forall_mem_cons.2 ⟨?_, ih hrest⟩
    rcases ht with rfl | ⟨-, kind, -, rfl⟩
    · exact hfirst
    · exact hfirst

theorem isPlain_of_mem_tokensOf {cs : List Char} {pieces : List Piece}
    (h : ∀ p ∈ pieces, p.token.IsPlain) : ∀ t ∈ tokensOf line cs pieces, t.IsPlain := by
  have hends : ∀ t : Token, t.text = "" → t.IsPlain := by
    intro t ht
    rw [Token.IsPlain, ht]
    decide
  apply isPlain_of_retagged (retagged_classify _)
  rw [List.forall_mem_append, List.forall_mem_cons, List.forall_mem_map]
  exact ⟨⟨hends _ rfl, h⟩, by simpa using hends _ rfl⟩

variable {cs : List Char}

theorem isPlain_of_rawCuts (h : ∀ cut ∈ st.rawCuts line cs, cut.IsPlain) :
    ∀ p ∈ piecesFrom line st.cursor cs, p.token.IsPlain :=
  fun _ hp => (h _ (List.mem_map_of_mem hp)).1

theorem rawTokens_gated (h : ∀ cut ∈ st.rawCuts line cs, cut.IsPlain) :
    (st.gated c x).rawTokens line cs = st.rawTokens line cs := by
  rw [rawTokens, rawTokens, cursor_gated, piecesFrom_gated x (isPlain_of_rawCuts h)]

/-- The pieces of a line in which nothing is replaced are what is cut off. -/
theorem isPlain_of_cutsFrom {seen : List Token} {cur : Cursor}
    (h : ∀ cut ∈ st.cutsFrom line whole seen cur cs, cut.IsPlain)
    (hnone : st.expandFrom? line whole seen cur cs = none) :
    ∀ p ∈ piecesFrom line cur cs, p.token.IsPlain := by
  have htokens := tokens_cutsFrom hnone
  rw [← List.forall_mem_map (f := Piece.token) (P := Token.IsPlain), ← htokens, List.forall_mem_map]
  exact fun cut hcut => (h cut hcut).1

theorem tokensWithin_gated {left : Nat} (limit : Nat)
    (h : ∀ cut ∈ st.cutsWithin line left cs, cut.IsPlain) :
    (st.gated c x).tokensWithin line limit left cs = st.tokensWithin line limit left cs := by
  induction left generalizing cs with
  | zero =>
    rw [tokensWithin, tokensWithin, rawTokens_gated c x h]
  | succ left ih =>
    rw [cutsWithin, List.forall_mem_append] at h
    obtain ⟨hcuts, hmore⟩ := h
    have hexpand : (st.gated c x).expandFrom? line cs [.start line] (st.gated c x).cursor cs =
        st.expandFrom? line cs [.start line] st.cursor cs := expandFrom?_gated c x hcuts
    simp only [tokensWithin, lex, if_true, hexpand]
    cases he : st.expandFrom? line cs [.start line] st.cursor cs with
    | some next =>
      -- The line is cut anew, with one replacement less to go.
      rw [he] at hmore
      simp only [ih hmore]
    | none =>
      have hpieces : piecesFrom line (st.gated c x).cursor cs = piecesFrom line st.cursor cs :=
        piecesFrom_gated x (isPlain_of_cutsFrom hcuts he)
      simp only [hpieces, failuresFrom_gated c x hcuts he]

/-- The tokens that are left in the end are plain, as all that were cut off are. -/
theorem isPlain_of_mem_tokensWithin {left : Nat} (limit : Nat)
    (h : ∀ cut ∈ st.cutsWithin line left cs, cut.IsPlain) :
    ∀ t ∈ (st.tokensWithin line limit left cs).1, t.IsPlain := by
  induction left generalizing cs with
  | zero => exact isPlain_of_mem_tokensOf (isPlain_of_rawCuts h)
  | succ left ih =>
    rw [cutsWithin, List.forall_mem_append] at h
    obtain ⟨hcuts, hmore⟩ := h
    simp only [tokensWithin, lex, if_true]
    cases he : st.expandFrom? line cs [.start line] st.cursor cs with
    | some next =>
      rw [he] at hmore
      dsimp only
      split
      · exact ih hmore
      · exact ih hmore
    | none => exact isPlain_of_mem_tokensOf (isPlain_of_cutsFrom hcuts he)

end State

end Sm83Asm
