import Sm83Asm.Proofs.Token.Lossless

set_option autoImplicit false

/-!
# Replacing until nothing is left

A line is cut again after every replacement, so what one replacement brings in, or puts together
with what was there, is looked at in the next pass. The passes end when one of them finds nothing
to replace, and in any case after a number of replacements, which is then reported.

Main statement: `replacing_complete_or_reported`. Without a report, nothing is left in the final
text that stands for other text.
-/

namespace Sm83Asm

namespace State

variable {st : State} {line : Nat}

/-- One line becomes another by a number of replacements, one in each pass. -/
inductive Replaces (st : State) (line : Nat) : Nat → List Char → List Char → Prop
  | refl (cs : List Char) : Replaces st line 0 cs cs
  | step {n : Nat} {cs next last : List Char} (hpass : st.lex line true cs = .expanded next)
      (hrest : Replaces st line n next last) : Replaces st line (n + 1) cs last

/-- Nothing in a line stands for other text: there is no macro argument, unique suffix or
interpolation in it, neither on its own nor inside a string, and no name that the tokens in front
of it leave open to replacement. -/
def Exhausted (st : State) (line : Nat) (cs : List Char) : Prop :=
  ∀ before p behind, piecesFrom line st.cursor cs = before ++ p :: behind → ∀ m ∈ p.matched,
    (m.kind ≠ .macroArgument ∧ m.kind ≠ .uniqueLabel ∧ m.kind ≠ .interpolation) ∧
      st.substitution ((before.map Piece.token).reverse ++ [.start line]) m.kind (m.slice cs) = none

/-! ## Matches that stand for themselves -/

/-- Macro arguments, unique suffixes and interpolations never stand for themselves: they have a
text, or it is an error that they have none. -/
theorem kind_of_substitution_eq_none {seen : List Token} {m : SubMatch} {whole : List Char}
    (hcut : WellCut m.kind m.length (whole.drop m.start))
    (h : st.substitution seen m.kind (m.slice whole) = none) :
    m.kind ≠ .macroArgument ∧ m.kind ≠ .uniqueLabel ∧ m.kind ≠ .interpolation := by
  unfold substitution at h
  refine ⟨fun hk => ?_, fun hk => ?_, fun hk => ?_⟩
  · obtain ⟨c, hc⟩ := hcut.backslash hk
    rw [hk, SubMatch.slice, hc] at h
    exact absurd h (by simp)
  · rw [hk] at h
    exact absurd h (by simp)
  · rw [hk] at h
    exact absurd h (by simp)

/-- Where nothing is replaced and nothing fails, every match stands for itself. -/
theorem substitution_eq_none_of_quiet {whole : List Char} {seen : List Token}
    {matched : List SubMatch} (hexpand : st.expandIn? whole seen matched = none)
    (hfailures : st.failuresIn line whole seen matched = []) :
    ∀ m ∈ matched, st.substitution seen m.kind (m.slice whole) = none := by
  intro m hm
  have hok := List.findSome?_eq_none_iff.1 hexpand m hm
  have herror := List.filterMap_eq_nil_iff.1 hfailures m hm
  dsimp only at herror
  cases h : st.substitution seen m.kind (m.slice whole) with
  | none => rfl
  | some outcome =>
    cases outcome with
    | ok text => exact absurd hok (by simp [h])
    | error error => exact absurd herror (by simp [h])

/-- A quiet pass over the rest of a line has met only matches that stand for themselves. -/
theorem substitution_eq_none_of_pass (cur : Cursor) (front cs : List Char) (seen : List Token)
    (hpos : cur.pos = front.length)
    (hexpand : st.expandFrom? line (front ++ cs) seen cur cs = none)
    (hfailures : st.failuresFrom line (front ++ cs) seen (piecesFrom line cur cs) = []) :
    ∀ before p behind, piecesFrom line cur cs = before ++ p :: behind → ∀ m ∈ p.matched,
      WellCut m.kind m.length ((front ++ cs).drop m.start) ∧
        st.substitution ((before.map Piece.token).reverse ++ seen) m.kind
          (m.slice (front ++ cs)) = none := by
  fun_induction piecesFrom line cur cs generalizing front seen with
  | case1 cur =>
    intro before p behind hsplit
    exact absurd hsplit (by simp)
  | case2 cur c rest m ih =>
    have hne := List.cons_ne_nil c rest
    have hcut := (cur.fits_matchAt hne).whole
    have hwell : ∀ s ∈ (cur.piece line m (c :: rest)).matched,
        WellCut s.kind s.length ((front ++ c :: rest).drop s.start) :=
      Stored.wellCut_piece cur line hne hpos
    rw [failuresFrom, List.append_eq_nil_iff] at hfailures
    rw [expandFrom?] at hexpand
    cases hin : st.expandIn? (front ++ c :: rest) seen (cur.piece line m (c :: rest)).matched with
    | some next => exact absurd hexpand (by simp [m, hin])
    | none =>
      have hmore : st.expandFrom? line (front ++ c :: rest)
          ((cur.piece line m (c :: rest)).token :: seen) (cur.advance m (c :: rest))
          (rest.drop (m.length - 1)) = none := by
        simpa [m, hin] using hexpand
      intro before p behind hsplit
      cases before with
      | nil =>
        obtain ⟨rfl, -⟩ := List.cons.inj hsplit
        intro s hs
        exact ⟨hwell s hs, substitution_eq_none_of_quiet hin hfailures.1 s hs⟩
      | cons first before =>
        obtain ⟨rfl, htail⟩ := List.cons.inj hsplit
        have hdrop : rest.drop (m.length - 1) = (c :: rest).drop m.length := by
          rw [← Nat.succ_pred_eq_of_pos hcut.pos]
          rfl
        have hwhole : front ++ c :: rest =
            (front ++ (c :: rest).take m.length) ++ rest.drop (m.length - 1) := by
          rw [hdrop, List.append_assoc, List.take_append_drop]
        have hbehind :
            (cur.advance m (c :: rest)).pos = (front ++ (c :: rest).take m.length).length := by
          rw [List.length_append, List.length_take_of_le hcut.le, ← hpos]
          rfl
        have hrest := ih (front ++ (c :: rest).take m.length) _ hbehind
          (hwhole ▸ hmore) (hwhole ▸ hfailures.2) before p behind htail
        rw [← hwhole] at hrest
        rw [List.map_cons, List.reverse_cons, List.append_assoc]
        exact hrest

/-! ## Passes -/

/-- A pass that replaces nothing and reports nothing leaves nothing to replace. -/
theorem exhausted_of_lex {cs : List Char} {tokens : List Token}
    (h : st.lex line true cs = .final tokens []) : st.Exhausted line cs := by
  unfold lex at h
  rw [if_pos rfl] at h
  split at h
  · exact absurd h (by simp)
  · rename_i hexpand
    obtain ⟨-, hfailures⟩ := Lexed.final.inj h
    intro before p behind hsplit m hm
    obtain ⟨hcut, hnone⟩ := substitution_eq_none_of_pass st.cursor [] cs [.start line] rfl hexpand
      hfailures before p behind hsplit m hm
    exact ⟨kind_of_substitution_eq_none hcut hnone, hnone⟩

/-- The passes over a line: at most `left` of them replace something, and the last one leaves
nothing to replace unless there is a report. -/
theorem exists_replaces (line limit : Nat) : ∀ (left : Nat) (cs : List Char), ∃ n last,
    n ≤ left ∧ st.Replaces line n cs last ∧
      (st.tokensWithin line limit left cs).1 = st.rawTokens line last ∧
      (0 < left → (st.tokensWithin line limit left cs).2 = [] → st.Exhausted line last) := by
  intro left
  induction left with
  | zero =>
    intro cs
    exact ⟨0, cs, Nat.le_refl 0, .refl cs, rfl, fun hlt => absurd hlt (Nat.lt_irrefl 0)⟩
  | succ left ih =>
    intro cs
    rw [tokensWithin]
    cases hlex : st.lex line true cs with
    | final tokens reports =>
      refine ⟨0, cs, Nat.zero_le _, .refl cs, tokens_of_lex hlex, fun _ hquiet => ?_⟩
      obtain rfl : reports = [] := hquiet
      exact exhausted_of_lex hlex
    | expanded next =>
      obtain ⟨n, last, hn, hreplaces, htokens, hexhausted⟩ := ih next
      refine ⟨n + 1, last, Nat.succ_le_succ hn, .step hlex hreplaces, ?_, fun _ hquiet => ?_⟩
      · dsimp only
        split
        · exact htokens
        · exact htokens
      · dsimp only at hquiet
        split at hquiet
        · exact absurd hquiet (by simp)
        · rename_i hleft
          have hpos : 0 < left := Nat.pos_of_ne_zero fun h => hleft (by simp [h])
          exact hexhausted hpos hquiet

/-- Replacing is complete, or it is reported. A line that is cut with a limit of at least one goes
through at most that many replacements, its tokens are those of the final text, and where nothing
is reported that text holds nothing that stands for other text. -/
theorem replacing_complete_or_reported (st : State) (line limit : Nat) (cs : List Char)
    (hlimit : 0 < limit) :
    ∃ n last, n ≤ limit ∧ st.Replaces line n cs last ∧
      (st.tokensWithin line limit limit cs).1 = st.rawTokens line last ∧
      ((st.tokensWithin line limit limit cs).2 = [] → st.Exhausted line last) := by
  obtain ⟨n, last, hn, hreplaces, htokens, hexhausted⟩ := exists_replaces line limit limit cs
  exact ⟨n, last, hn, hreplaces, htokens, hexhausted hlimit⟩

/-- Inside a macro call, with two string equates at hand. -/
def greetingState : State :=
  { ofConfig {} with
    strings := ⟨[("greeting", ⟨"a.asm", 1, "\"hello\""⟩), ("who", ⟨"a.asm", 2, "you"⟩)]⟩
    frames := [⟨"say", ["all", "of"], 0⟩]
    uniqueIds := [3] }

/-- A line with every kind of text that stands for other text. -/
def greetingLine : List Char :=
  "text\\@: db greeting, \"\\1 \\2 \x7bs:who\x7d\\n\"".toList

theorem quiet_greetingLine : (greetingState.tokensWithin 1 6 6 greetingLine).2 = [] := by
  have h : (greetingState.tokensWithin 1 6 6 greetingLine).2.isEmpty = true := by
    decide +kernel
  exact List.isEmpty_iff.1 h

theorem replacing_complete_or_reported_greetingLine :
    (greetingState.tokensWithin 1 6 6 greetingLine).2 = [] ∧
      ∃ n last, n ≤ 6 ∧ greetingState.Replaces 1 n greetingLine last ∧
        greetingState.Exhausted 1 last := by
  obtain ⟨n, last, hn, hreplaces, htokens, hexhausted⟩ :=
    greetingState.replacing_complete_or_reported 1 6 greetingLine (by decide)
  exact ⟨quiet_greetingLine, n, last, hn, hreplaces, hexhausted quiet_greetingLine⟩

end State

end Sm83Asm
