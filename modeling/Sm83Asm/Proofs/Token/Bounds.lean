import Sm83Asm.Token.Stream

set_option autoImplicit false

/-!
# How far matches reach

Every rule takes at least one character when it matches and never more than there are, and a match
inside another one lies between its ends. A match between braces begins and ends with them.

Main statements: `fits_scanTop` for the match that wins at the top of a line and all that is inside
it, and `length_le_of_scanTop` for those that lose.
-/

namespace Sm83Asm

/-! ## Rules -/

/-- No more characters are counted than there are. -/
theorem countWhile_le (p : Char → Bool) (cs : List Char) : countWhile p cs ≤ cs.length :=
  (List.takeWhile_prefix p).length_le

theorem spaceLength_le (cs : List Char) : spaceLength cs ≤ cs.length := countWhile_le _ cs

theorem commentLength_le (cs : List Char) : commentLength cs ≤ cs.length := by
  unfold commentLength
  split
  · exact Nat.le_refl _
  · exact Nat.zero_le _

theorem directiveLength_le (cs : List Char) : directiveLength cs ≤ cs.length := by
  unfold directiveLength
  split
  · rename_i word
    have := countWhile_le Text.isWordChar word
    split
    · exact Nat.zero_le _
    · rw [List.length_cons]
      omega
  · exact Nat.zero_le _

theorem macroArgumentLength_le (cs : List Char) : macroArgumentLength cs ≤ cs.length := by
  unfold macroArgumentLength
  split
  · split
    · simp
    · exact Nat.zero_le _
  · exact Nat.zero_le _

theorem uniqueLabelLength_le (cs : List Char) : uniqueLabelLength cs ≤ cs.length := by
  unfold uniqueLabelLength
  split
  · simp
  · exact Nat.zero_le _

theorem digitsLength_le (isDigit : Char → Bool) (cs : List Char) :
    digitsLength isDigit cs ≤ cs.length :=
  countWhile_le _ cs

theorem markedLength_le (isDigit : Char → Bool) (cs : List Char) :
    markedLength isDigit cs ≤ cs.length + 1 := by
  have := digitsLength_le isDigit cs
  unfold markedLength
  split
  · exact Nat.zero_le _
  · omega

theorem decimalLength_le (cs : List Char) : decimalLength cs ≤ cs.length := by
  have hwhole := digitsLength_le Char.isDigit cs
  unfold decimalLength
  dsimp only
  split
  · rename_i tail htail
    have hlength := congrArg List.length htail
    have hfraction := digitsLength_le Char.isDigit tail
    rw [List.length_drop, List.length_cons] at hlength
    split
    · exact hwhole
    · omega
  · exact hwhole

theorem numberLength_le (ctx : ScanContext) (cs : List Char) :
    numberLength ctx cs ≤ cs.length := by
  cases cs with
  | nil => exact Nat.le_refl _
  | cons c cs =>
    have hmarked := fun isDigit => markedLength_le isDigit cs
    have hdecimal := decimalLength_le (c :: cs)
    simp only [numberLength, List.length_cons] at hdecimal ⊢
    repeat' split
    all_goals first | exact hmarked _ | exact hdecimal | exact Nat.zero_le _

/-- A keyword is no longer than the word that it stands in. -/
theorem keywordLength_le (ctx : ScanContext) (cs : List Char) :
    keywordLength ctx cs ≤ countWhile Text.isWordChar cs := by
  unfold keywordLength
  split
  · split
    · exact Nat.le_refl _
    · exact Nat.zero_le _
  · exact Nat.zero_le _

/-- A mnemonic is no longer than the word that it stands in. -/
theorem opcodeLength_le (cs : List Char) : opcodeLength cs ≤ countWhile Text.isWordChar cs := by
  unfold opcodeLength
  split
  · exact Nat.le_refl _
  · exact Nat.zero_le _

theorem identifierLength_le (cs : List Char) : identifierLength cs ≤ cs.length := by
  cases cs with
  | nil => exact Nat.le_refl _
  | cons c cs =>
    have hname := countWhile_le Text.isIdentChar (c :: cs)
    simp only [countWhile, List.length_cons] at hname
    simp only [identifierLength, List.length_cons]
    split
    · split
      · exact Nat.zero_le _
      · omega
    · split
      · split
        · rename_i hstep
          simp only [Bool.and_eq_true] at hstep
          have hne : (c :: cs).drop ((c :: cs).takeWhile Text.isIdentChar).length ≠ [] := by
            intro hnil
            rw [hnil] at hstep
            exact absurd hstep.2 (by simp [closesStep])
          have hlt := List.length_pos_iff.2 hne
          rw [List.length_drop, List.length_cons] at hlt
          omega
        · exact hname
      · exact Nat.zero_le _

/-- A spelling that leads a text is no longer than the text. -/
theorem length_le_of_isPrefixOf {spelling cs : List Char} (h : spelling.isPrefixOf cs = true) :
    spelling.length ≤ cs.length :=
  (List.isPrefixOf_iff_prefix.1 h).length_le

theorem operatorLength_le (cs : List Char) : operatorLength cs ≤ cs.length := by
  unfold operatorLength
  split
  · rename_i h
    obtain ⟨spelling, hmem, hpre⟩ := List.any_eq_true.1 h
    have htwo : ∀ s ∈ digraphs, s.length = 2 := by decide
    exact htwo spelling hmem ▸ length_le_of_isPrefixOf hpre
  · split
    · rename_i h
      cases cs with
      | nil => exact absurd h (by simp)
      | cons c cs => simp
    · exact Nat.zero_le _

theorem literalLength_le (spelling cs : List Char) : literalLength spelling cs ≤ cs.length := by
  unfold literalLength
  split
  · rename_i h
    exact length_le_of_isPrefixOf h
  · exact Nat.zero_le _

/-! ## Matches -/

/-- What a match of a class takes off the front of a text: at least one character and no more than
there are, between braces for an interpolation and behind a backslash for a macro argument. -/
structure WellCut (kind : TokenKind) (length : Nat) (cs : List Char) : Prop where
  pos : 0 < length
  le : length ≤ cs.length
  braces : kind = .interpolation → ∃ inner, cs.take length = '\x7b' :: inner ++ ['\x7d']
  backslash : kind = .macroArgument → ∃ c, cs.take length = ['\\', c]

/-- A match of a class without marks of its own. -/
theorem WellCut.of_plain {kind : TokenKind} {length : Nat} {cs : List Char} (hpos : 0 < length)
    (hle : length ≤ cs.length) (hi : kind ≠ .interpolation) (hm : kind ≠ .macroArgument) :
    WellCut kind length cs :=
  ⟨hpos, hle, fun h => absurd h hi, fun h => absurd h hm⟩

/-- A token has characters. -/
theorem WellCut.take_ne_nil {kind : TokenKind} {length : Nat} {cs : List Char}
    (h : WellCut kind length cs) : cs.take length ≠ [] := by
  apply List.ne_nil_of_length_pos
  rw [List.length_take, Nat.min_eq_left h.le]
  exact h.pos

/-- A match and those inside it, at the head of a text with `pos` characters in front. -/
structure Match.Fits (m : Match) (pos : Nat) (cs : List Char) : Prop where
  whole : WellCut m.kind m.length cs
  subs : ∀ front : List Char, front.length = pos → ∀ s ∈ m.subs,
    WellCut s.kind s.length ((front ++ cs).drop s.start)

/-- A match is not empty. -/
theorem ofLength_eq_some {kind : TokenKind} {n : Nat} {m : Match} (h : ofLength kind n = some m) :
    0 < n ∧ m = { kind, length := n } := by
  cases n with
  | zero => exact absurd h (by simp [ofLength])
  | succ n => exact ⟨Nat.succ_pos n, (Option.some.inj h).symm⟩

/-- A match of a length fits if there are as many characters. -/
theorem fits_ofLength {kind : TokenKind} {n pos : Nat} {m : Match} {cs : List Char}
    (h : ofLength kind n = some m) (hn : n ≤ cs.length) (hi : kind ≠ .interpolation)
    (hm : kind ≠ .macroArgument) : m.Fits pos cs := by
  obtain ⟨hpos, rfl⟩ := ofLength_eq_some h
  exact ⟨.of_plain hpos hn hi hm, fun _ _ _ hs => absurd hs (by simp)⟩

/-! ## Between delimiters -/

/-- A backslash and what it escapes fit where both are there. -/
theorem fits_backslashed {d : Delimiter} {c : Char} {m : Match} (h : backslashed d c = some m)
    (pos : Nat) (rest : List Char) : m.Fits pos ('\\' :: c :: rest) := by
  have hplain : ∀ kind : TokenKind, kind ≠ .interpolation →
      Match.Fits { kind, length := 2 } pos ('\\' :: c :: rest) := fun kind hk =>
    ⟨⟨by simp, by simp, fun h => absurd h hk, fun _ => ⟨c, by simp⟩⟩,
      fun _ _ _ hs => absurd hs (by simp)⟩
  unfold backslashed at h
  split at h
  · obtain rfl := Option.some.inj h
    exact hplain .escape (by decide)
  · split at h
    · obtain rfl := Option.some.inj h
      exact hplain .macroArgument (by decide)
    · split at h
      · obtain rfl := Option.some.inj h
        exact hplain .uniqueLabel (by decide)
      · exact absurd h (by simp)

/-- Text up to a delimiter fits. -/
theorem fits_plainText {d : Delimiter} {cs : List Char} {m : Match} (h : plainText d cs = some m)
    (pos : Nat) : m.Fits pos cs := by
  have hle := countWhile_le (fun c => !d.endsText c) cs
  unfold plainText at h
  split at h
  · exact absurd h (by simp)
  · rename_i n hn
    obtain rfl := Option.some.inj h
    have hkind : d.textKind ≠ .interpolation ∧ d.textKind ≠ .macroArgument := by
      cases d <;> decide
    exact ⟨.of_plain (Nat.pos_of_ne_zero hn) hle hkind.1 hkind.2,
      fun _ _ _ hs => absurd hs (by simp)⟩

/-- What is found behind an opening delimiter: the contents end with the closing one, and the
matches inside are well cut. -/
structure Enclosed (d : Delimiter) (pos : Nat) (cs : List Char) (n : Nat)
    (subs : List SubMatch) : Prop where
  le : n ≤ cs.length
  closing : ∃ inner, cs.take n = inner ++ [d.closing]
  subs : ∀ front : List Char, front.length = pos → ∀ s ∈ subs,
    WellCut s.kind s.length ((front ++ cs).drop s.start)

/-- What is enclosed has a delimiter at its end at least. -/
theorem Enclosed.pos {d : Delimiter} {pos : Nat} {cs : List Char} {n : Nat} {subs : List SubMatch}
    (h : Enclosed d pos cs n subs) : 0 < n := by
  obtain ⟨inner, hinner⟩ := h.closing
  refine Nat.pos_of_ne_zero fun hn => ?_
  rw [hn, List.take_zero] at hinner
  exact absurd hinner (by simp)

/-- Contents behind a stretch of text. -/
theorem Enclosed.behind {d : Delimiter} {pos : Nat} {cs : List Char} {k n : Nat}
    {inner subs : List SubMatch} (hk : k ≤ cs.length)
    (h : Enclosed d (pos + k) (cs.drop k) n subs)
    (hinner : ∀ front : List Char, front.length = pos → ∀ s ∈ inner,
      WellCut s.kind s.length ((front ++ cs).drop s.start)) :
    Enclosed d pos cs (k + n) (inner ++ subs) where
  le := by
    have := h.le
    rw [List.length_drop] at this
    omega
  closing := by
    obtain ⟨tail, htail⟩ := h.closing
    exact ⟨cs.take k ++ tail, by rw [List.take_add, htail, List.append_assoc]⟩
  subs front hfront s hs := by
    rcases List.mem_append.1 hs with hs | hs
    · exact hinner front hfront s hs
    · have hlength : (front ++ cs.take k).length = pos + k := by
        rw [List.length_append, List.length_take, hfront]
        omega
      have := h.subs (front ++ cs.take k) hlength s hs
      rwa [List.append_assoc, List.take_append_drop] at this

mutual

/-- A piece of a literal fits. -/
theorem fits_nested {d : Delimiter} {pos : Nat} {cs : List Char} {m : Match}
    (h : nested d pos cs = some m) : m.Fits pos cs := by
  match cs with
  | [] => exact absurd h (by simp [nested])
  | c :: rest =>
    unfold nested at h
    split at h
    · rename_i hc
      obtain rfl := beq_iff_eq.1 hc
      split at h
      · rename_i n subs hcontents
        obtain rfl := Option.some.inj h
        have henclosed := enclosed_contents hcontents
        obtain ⟨inner, hinner⟩ := henclosed.closing
        have hle := henclosed.le
        refine ⟨⟨Nat.succ_pos n, by simpa using hle, fun _ => ⟨inner, ?_⟩,
          fun hk => absurd hk (by simp)⟩, fun front hfront s hs => ?_⟩
        · rw [List.take_succ_cons, hinner]
          rfl
        · have := henclosed.subs (front ++ ['\x7b']) (by simp [hfront]) s hs
          rwa [List.append_assoc] at this
      · exact absurd h (by simp)
    · split at h
      · rename_i hc
        obtain rfl := beq_iff_eq.1 hc
        split at h
        · exact fits_backslashed h pos _
        · exact absurd h (by simp)
      · exact fits_plainText h pos
termination_by 2 * cs.length

/-- Contents are found up to the delimiter that closes them. -/
theorem enclosed_contents {d : Delimiter} {pos : Nat} {cs : List Char} {n : Nat}
    {subs : List SubMatch} (h : contents d pos cs = some (n, subs)) :
    Enclosed d pos cs n subs := by
  match cs with
  | [] => exact absurd h (by simp [contents])
  | c :: rest =>
    rw [contents] at h
    split at h
    · rename_i hc
      obtain rfl := beq_iff_eq.1 hc
      obtain ⟨rfl, rfl⟩ := Prod.mk.inj (Option.some.inj h)
      exact ⟨by simp, ⟨[], rfl⟩, fun _ _ _ hs => absurd hs (by simp)⟩
    · split at h
      · rename_i m hm
        -- A match and what follows it: its own parts lie inside of it, and the others behind
        -- it.
        have hfits := fits_nested hm
        have hpos := hfits.whole.pos
        have hle := hfits.whole.le
        have hdrop : rest.drop (m.length - 1) = (c :: rest).drop m.length := by
          rw [← Nat.succ_pred_eq_of_pos hpos]
          rfl
        split at h
        · rename_i k more hmore
          obtain ⟨rfl, rfl⟩ := Prod.mk.inj (Option.some.inj h)
          rw [hdrop] at hmore
          have hrest := enclosed_contents hmore
          rw [List.append_cons]
          refine hrest.behind hle fun front hfront s hs => ?_
          rcases List.mem_append.1 hs with hs | hs
          · exact hfits.subs front hfront s hs
          · obtain rfl := List.mem_singleton.1 hs
            rw [← hfront, List.drop_left]
            exact hfits.whole
        · exact absurd h (by simp)
      · split at h
        · exact absurd h (by simp)
        · split at h
          · rename_i k more hmore
            obtain ⟨rfl, rfl⟩ := Prod.mk.inj (Option.some.inj h)
            have hrest := enclosed_contents hmore
            have hbehind : Enclosed d pos (c :: rest) (1 + k) ([] ++ more) :=
              .behind (by simp) hrest fun _ _ _ hs => absurd hs (by simp)
            rw [Nat.add_comm]
            exact hbehind
          · exact absurd h (by simp)
termination_by 2 * cs.length + 1
decreasing_by
  all_goals simp only [List.length_cons, List.length_drop]; omega

end

/-- A delimited token is of the kind that was asked for. -/
theorem kind_delimited {kind : TokenKind} {opening : Char} {d : Delimiter} {pos : Nat}
    {cs : List Char} {m : Match} (h : delimited kind opening d pos cs = some m) :
    m.kind = kind := by
  unfold delimited at h
  split at h
  · exact absurd h (by simp)
  · split at h
    · obtain ⟨p, -, rfl⟩ := Option.map_eq_some_iff.1 h
      rfl
    · exact absurd h (by simp)

/-- A delimited token fits, from its opening to its closing delimiter. -/
theorem fits_delimited {kind : TokenKind} {opening : Char} {d : Delimiter} {pos : Nat}
    {cs : List Char} {m : Match} (h : delimited kind opening d pos cs = some m)
    (hkind : kind = .interpolation → opening = '\x7b' ∧ d = .interpolation)
    (hm : kind ≠ .macroArgument) : m.Fits pos cs := by
  unfold delimited at h
  split at h
  · exact absurd h (by simp)
  · rename_i c rest
    split at h
    · rename_i hc
      obtain rfl := beq_iff_eq.1 hc
      obtain ⟨⟨n, subs⟩, hcontents, rfl⟩ := Option.map_eq_some_iff.1 h
      have henclosed := enclosed_contents hcontents
      obtain ⟨inner, hinner⟩ := henclosed.closing
      have hle := henclosed.le
      refine ⟨⟨Nat.succ_pos n, by simpa using hle, fun hk => ⟨inner, ?_⟩, fun hk => absurd hk hm⟩,
        fun front hfront s hs => ?_⟩
      · obtain ⟨rfl, rfl⟩ := hkind hk
        rw [List.take_succ_cons, hinner]
        rfl
      · have := henclosed.subs (front ++ [c]) (by simp [hfront]) s hs
        rwa [List.append_assoc] at this
    · exact absurd h (by simp)

/-! ## At the top of a line -/

/-- An argument of a macro is a backslash and its name. -/
theorem fits_macroArgument {pos : Nat} {cs : List Char} {m : Match}
    (h : ofLength .macroArgument (macroArgumentLength cs) = some m) : m.Fits pos cs := by
  obtain ⟨hpos, rfl⟩ := ofLength_eq_some h
  refine ⟨⟨hpos, macroArgumentLength_le cs, fun hk => absurd hk (by simp), fun _ => ?_⟩,
    fun _ _ _ hs => absurd hs (by simp)⟩
  dsimp only
  unfold macroArgumentLength at hpos ⊢
  split at hpos
  · rename_i c rest _
    split at hpos
    · rename_i hc
      exact ⟨c, by simp [hc]⟩
    · exact absurd hpos (by simp)
  · exact absurd hpos (by simp)

/-- Whatever is tried at a position fits there. -/
theorem fits_of_mem_candidates {ctx : ScanContext} {pos : Nat} {cs : List Char} {m : Match}
    (h : some m ∈ candidates ctx pos cs) : m.Fits pos cs := by
  have hword := countWhile_le Text.isWordChar cs
  simp only [candidates, List.mem_cons, List.not_mem_nil, or_false] at h
  rcases h with h | h | h | h | h | h | h | h | h | h | h | h | h | h | h | h | h | h | h
  · exact fits_ofLength h.symm (spaceLength_le cs) (by decide) (by decide)
  · exact fits_ofLength h.symm (commentLength_le cs) (by decide) (by decide)
  · exact fits_ofLength h.symm (directiveLength_le cs) (by decide) (by decide)
  · exact fits_delimited h.symm (by simp) (by decide)
  · exact fits_delimited h.symm (by simp) (by decide)
  · exact fits_macroArgument h.symm
  · exact fits_ofLength h.symm (uniqueLabelLength_le cs) (by decide) (by decide)
  · exact fits_ofLength h.symm (numberLength_le ctx cs) (by decide) (by decide)
  · exact fits_ofLength h.symm (Nat.le_trans (keywordLength_le ctx cs) hword) (by decide)
      (by decide)
  · exact fits_ofLength h.symm (Nat.le_trans (opcodeLength_le cs) hword) (by decide) (by decide)
  · exact fits_ofLength h.symm (identifierLength_le cs) (by decide) (by decide)
  · exact fits_ofLength h.symm (operatorLength_le cs) (by decide) (by decide)
  all_goals exact fits_ofLength h.symm (literalLength_le _ cs) (by decide) (by decide)

/-- The longer of two matches is one of them. -/
theorem longer_eq_or (best found : Option Match) :
    longer best found = best ∨ longer best found = found := by
  cases best with
  | none => cases found <;> simp [longer]
  | some best =>
    cases found with
    | none => simp [longer]
    | some found =>
      simp only [longer]
      split
      · exact Or.inr rfl
      · exact Or.inl rfl

/-- The length of a match that may be missing. -/
def matchedLength (m : Option Match) : Nat := (m.map Match.length).getD 0

/-- The longer of two matches is as long as the longer one. -/
theorem matchedLength_longer (best found : Option Match) :
    matchedLength (longer best found) = max (matchedLength best) (matchedLength found) := by
  cases best with
  | none => cases found <;> simp [longer, matchedLength]
  | some best =>
    cases found with
    | none => simp [longer, matchedLength]
    | some found =>
      simp only [longer]
      split
      · rename_i hlt
        simp only [matchedLength, Option.map_some, Option.getD_some]
        omega
      · rename_i hle
        simp only [matchedLength, Option.map_some, Option.getD_some]
        omega

/-- The longest of some matches is one of them, or the one to beat. -/
theorem foldl_longer_mem (found : List (Option Match)) (best : Option Match) :
    found.foldl longer best = best ∨ found.foldl longer best ∈ found := by
  induction found generalizing best with
  | nil => exact Or.inl rfl
  | cons m found ih =>
    rw [List.foldl_cons]
    rcases ih (longer best m) with h | h
    · rw [h]
      exact (longer_eq_or best m).imp_right fun heq => by simp [heq]
    · exact Or.inr (List.mem_cons_of_mem _ h)

/-- The longest match is at least as long as every match that was tried. -/
theorem matchedLength_le_foldl (found : List (Option Match)) (best : Option Match) :
    matchedLength best ≤ matchedLength (found.foldl longer best) ∧
      ∀ m ∈ found, matchedLength m ≤ matchedLength (found.foldl longer best) := by
  induction found generalizing best with
  | nil => exact ⟨Nat.le_refl _, by simp⟩
  | cons m found ih =>
    obtain ⟨hbest, hfound⟩ := ih (longer best m)
    rw [matchedLength_longer] at hbest
    rw [List.foldl_cons]
    refine ⟨by omega, fun k hk => ?_⟩
    rcases List.mem_cons.1 hk with rfl | hk
    · omega
    · exact hfound k hk

/-- The first of the longest matches wins. -/
theorem foldl_longer_of_longest {front back : List (Option Match)} {m : Match}
    (hfront : ∀ k ∈ front, matchedLength k < m.length)
    (hback : ∀ k ∈ back, matchedLength k ≤ m.length) :
    (front ++ some m :: back).foldl longer none = some m := by
  have hwins : longer (front.foldl longer none) (some m) = some m := by
    rcases foldl_longer_mem front none with hnone | hmem
    · rw [hnone]
      rfl
    · have hlt := hfront _ hmem
      cases hbest : front.foldl longer none with
      | none => rfl
      | some best =>
        rw [hbest] at hlt
        exact if_pos hlt
  rw [List.foldl_append, List.foldl_cons, hwins]
  induction back with
  | nil => rfl
  | cons k back ih =>
    rw [List.forall_mem_cons] at hback
    have hstays : longer (some m) k = some m := by
      cases k with
      | none => rfl
      | some k => exact if_neg (Nat.not_lt.2 hback.1)
    rw [List.foldl_cons, hstays]
    exact ih hback.2

/-- What is found is one of those that were tried. -/
theorem mem_candidates_of_scanTop {ctx : ScanContext} {pos : Nat} {cs : List Char} {m : Match}
    (h : scanTop ctx pos cs = some m) : some m ∈ candidates ctx pos cs := by
  rcases foldl_longer_mem (candidates ctx pos cs) none with hnone | hmem
  · exact absurd (hnone.symm.trans h) (by simp)
  · exact h ▸ hmem

/-- The match at the top of a line, with all that is inside it, lies in the line. -/
theorem fits_scanTop {ctx : ScanContext} {pos : Nat} {cs : List Char} {m : Match}
    (h : scanTop ctx pos cs = some m) : m.Fits pos cs :=
  fits_of_mem_candidates (mem_candidates_of_scanTop h)

/-- No rule takes more characters than the match that wins. -/
theorem length_le_of_scanTop {ctx : ScanContext} {pos : Nat} {cs : List Char} {m k : Match}
    (h : scanTop ctx pos cs = some m) (hk : some k ∈ candidates ctx pos cs) :
    k.length ≤ m.length := by
  have hle := (matchedLength_le_foldl (candidates ctx pos cs) none).2 _ hk
  rw [show (candidates ctx pos cs).foldl longer none = some m from h] at hle
  exact hle

/-- The match at a place, or the one character that no rule takes. -/
theorem Cursor.fits_matchAt (cur : Cursor) {cs : List Char} (hne : cs ≠ []) :
    (cur.matchAt cs).Fits cur.pos cs := by
  unfold Cursor.matchAt
  cases h : scanTop cur.context cur.pos cs with
  | some m => exact fits_scanTop h
  | none =>
    exact ⟨.of_plain Nat.one_pos (List.length_pos_iff.2 hne) (by decide) (by decide),
      fun _ _ _ hs => absurd hs (by simp)⟩

end Sm83Asm
