import Sm83Asm.Proofs.Run.History

set_option autoImplicit false

/-!
# Lines that are passed over

A line inside a repeat or in a dead branch is not parsed. It does nothing, or a single word of it
is carried out as a keyword without arguments. This module says what such a line does as a whole,
from the word that is found in its tokens as written.

Main statements: `runLine_of_ignored` and `runLine_of_bare`, and for the lines that are parsed in
full `runLine_of_parsed?`.
-/

namespace Sm83Asm

/-! ## Tokens as written -/

/-- The start token stays in front when labels and macro calls are told apart. -/
theorem exists_classify_eq (line : Nat) (ts : List Token) :
    ∃ rest, classify (.start line :: ts) = .start line :: rest := by
  unfold classify
  split
  · exact ⟨_, rfl⟩
  · dsimp only
    split
    · exact ⟨_, rfl⟩
    · split
      · split
        · exact ⟨_, rfl⟩
        · exact ⟨_, rfl⟩
      · exact ⟨_, rfl⟩

theorem State.head?_rawTokens (st : State) (line : Nat) (cs : List Char) :
    (st.rawTokens line cs).head? = some (.start line) := by
  obtain ⟨rest, h⟩ := exists_classify_eq line
    ((piecesFrom line st.cursor cs).map Piece.token ++
      [⟨.endOfLine, "", line, Text.byteLength cs⟩])
  have hraw : st.rawTokens line cs = .start line :: rest := h
  rw [hraw]
  rfl

/-- The word that is found spells the keyword. -/
theorem findKeyword?_eq_some {words : List Keyword} {tokens : List Token} {keyword : Keyword}
    {word : Token} (h : findKeyword? words tokens = some (keyword, word)) :
    Keyword.ofWord? word.text = some keyword ∧ keyword ∈ words := by
  obtain ⟨t, -, ht⟩ := List.exists_of_findSome?_eq_some h
  split at ht
  · obtain ⟨k, hk, hfound⟩ := Option.bind_eq_some_iff.1 ht
    split at hfound
    · rename_i hmem
      simp only [Option.some.injEq, Prod.mk.injEq] at hfound
      obtain ⟨rfl, rfl⟩ := hfound
      exact ⟨hk, List.contains_iff_mem.1 hmem⟩
    · exact absurd hfound (by simp)
  · exact absurd ht (by simp)

/-- The first of some keywords in a line as it is written. -/
def State.writtenKeyword? (st : State) (words : List Keyword) (line : Nat) (text : String) :
    Option Keyword :=
  (findKeyword? words (st.rawTokens line text.toList)).map Prod.fst

/-- The words of a line as it is written depend on the options and on the extensions only. -/
theorem State.writtenKeyword?_congr {st st' : State} (h : st'.cursor = st.cursor) :
    st'.writtenKeyword? = st.writtenKeyword? := by
  funext words line text
  rw [writtenKeyword?, writtenKeyword?, rawTokens, rawTokens, h]

theorem State.writtenKeyword?_eq_none {st : State} {words : List Keyword} {line : Nat}
    {text : String} (h : st.writtenKeyword? words line text = none) :
    findKeyword? words (st.rawTokens line text.toList) = none :=
  Option.map_eq_none_iff.1 h

theorem State.writtenKeyword?_eq_some {st : State} {words : List Keyword} {line : Nat}
    {text : String} {keyword : Keyword} (h : st.writtenKeyword? words line text = some keyword) :
    ∃ word, findKeyword? words (st.rawTokens line text.toList) = some (keyword, word) ∧
      Keyword.ofWord? word.text = some keyword := by
  obtain ⟨⟨k, word⟩, hfound, rfl⟩ := Option.map_eq_some_iff.1 h
  exact ⟨word, hfound, (findKeyword?_eq_some hfound).1⟩

/-! ## Which lines are passed over -/

/-- The only word of a line that is kept. -/
def bareKeyword (line : Nat) (word : Token) : Statement :=
  .line { start := .start line, operation := some (.keyword word []) }

/-- Inside a repeat, words that open and close repeats are kept. -/
theorem State.passOver?_of_repeats (st : State) (hm : st.macroDefs = []) (hr : st.repeats ≠ [])
    (line : Nat) (cs : List Char) :
    st.passOver? (st.rawTokens line cs) =
      match findKeyword? [.rept, .endr] (st.rawTokens line cs) with
      | some (_, word) => some (bareKeyword line word)
      | none => some (.ignored (.start line)) := by
  have hr' : st.repeats.isEmpty = false := by
    cases hs : st.repeats with
    | nil => exact absurd hs hr
    | cons block outer => rfl
  unfold State.passOver?
  rw [head?_rawTokens]
  simp only [hm, hr', List.isEmpty_nil, Bool.not_true, Bool.not_false, Bool.false_eq_true, if_false,
    if_true]
  rcases findKeyword? [.rept, .endr] (st.rawTokens line cs) with _ | ⟨keyword, word⟩
  · rfl
  · rfl

/-- The words that delimit the branches of conditional blocks. -/
abbrev blockWords : List Keyword := [.ifTrue, .elseIf, .elseAll, .endIf]

/-- A line of which one word is kept has neither a label nor arguments. -/
theorem State.bare_of_passOver? {st : State} {tokens : List Token} {parsed : Line}
    (h : st.passOver? tokens = some (.line parsed)) :
    ∃ start word, ∃ keyword ∈ .rept :: .endr :: blockWords,
      Keyword.ofWord? word.text = some keyword ∧
        parsed = { start, operation := some (.keyword word []) } := by
  -- Whatever words are looked for, a line of which one is kept has this shape.
  have bare : ∀ {words : List Keyword} {found : Keyword × Token} {start : Token},
      (∀ k ∈ words, k ∈ Keyword.rept :: .endr :: blockWords) →
      findKeyword? words tokens = some found →
      some (Statement.line { start, operation := some (.keyword found.2 []) }) =
        some (.line parsed) →
      ∃ start word, ∃ keyword ∈ Keyword.rept :: .endr :: blockWords,
        Keyword.ofWord? word.text = some keyword ∧
          parsed = { start, operation := some (.keyword word []) } := by
    intro words found start hwords hfound heq
    simp only [Option.some.injEq, Statement.line.injEq] at heq
    obtain ⟨hk, hmem⟩ := findKeyword?_eq_some hfound
    exact ⟨start, found.2, found.1, hwords _ hmem, hk, heq.symm⟩
  unfold State.passOver? at h
  split at h
  · exact absurd h (by simp)
  · split at h
    · split at h
      · exact absurd h (by simp)
      · exact absurd h (by simp)
    · split at h
      · split at h
        · rename_i hfound
          exact bare (by decide) hfound h
        · exact absurd h (by simp)
      · split at h
        · split at h
          · exact absurd h (by simp)
          · exact absurd h (by simp)
        · rename_i hfound
          split at h
          · exact absurd h (by simp)
          · exact bare (by decide) hfound h
        · rename_i hfound
          split at h
          · exact absurd h (by simp)
          · exact bare (by decide) hfound h
        · rename_i hfound
          exact bare (by decide) hfound h

/-- Whether the next branch of the innermost conditional block may still be the live one. -/
def State.branchOpen (st : State) : Bool :=
  st.outerConditionsTrue && !(st.conditionals.head?.any (·.taken))

/-- Outside of macro definitions and repeats, words that delimit branches are kept, and a line is
parsed in full when it may be live. -/
theorem State.passOver?_of_plain (st : State) (hm : st.macroDefs = []) (hr : st.repeats = [])
    (line : Nat) (cs : List Char) :
    st.passOver? (st.rawTokens line cs) =
      match findKeyword? blockWords (st.rawTokens line cs) with
      | none => if st.conditionsTrue then none else some (.ignored (.start line))
      | some (.ifTrue, word) => if st.conditionsTrue then none else some (bareKeyword line word)
      | some (.elseIf, word) => if st.branchOpen then none else some (bareKeyword line word)
      | some (_, word) => some (bareKeyword line word) := by
  unfold State.passOver?
  rw [head?_rawTokens]
  simp only [hm, hr, List.isEmpty_nil, Bool.not_true, Bool.false_eq_true, if_false]
  rcases findKeyword? blockWords (st.rawTokens line cs) with _ | ⟨keyword, word⟩
  · rfl
  · cases keyword <;> rfl

namespace Assembler

/-! ## What a passed line does -/

/-- Moves to a line. -/
def atLine (asm : Assembler) (line : Nat) : Assembler :=
  asm.mapState fun st => { st with line }

/-- An unlabelled keyword with the right number of arguments. -/
theorem execute_keyword (next : Option LineRunner) {line : Line} {word : Token} {args : List Expr}
    {keyword : Keyword} (hlabel : line.label = none)
    (hop : line.operation = some (.keyword word args))
    (hk : Keyword.ofWord? word.text = some keyword)
    (harity : (keyword.checksOwnArity || keyword.arity.accepts args.length) = true)
    (asm : Assembler) :
    execute next line asm = asm.keywordBody next keyword none word args := by
  have hnone : (if keyword.namesLabel then asm else asm.mapState (·.defineLabel? none)) = asm := by
    cases keyword.namesLabel <;> rfl
  unfold execute
  rw [hop, hlabel]
  dsimp only [withKeyword]
  rw [hk]
  dsimp only
  rw [hnone, if_pos harity]

theorem statement_of_passOver? {line : Nat} {text : String} {st : State} {passed : Statement}
    (h : st.passOver? (st.rawTokens line text.toList) = some passed) :
    statement line text st = (passed, st) := by
  unfold statement
  dsimp only
  rw [h]

theorem runLine_of_ignored (next : Option LineRunner) {line : Nat} {text : String}
    {asm : Assembler} {start : Token}
    (h : asm.state.passOver? (asm.state.rawTokens line text.toList) = some (.ignored start)) :
    runLine next line text asm = asm.atLine line := by
  have hst : statement line text { asm.state with line } =
      (.ignored start, { asm.state with line }) := statement_of_passOver? h
  unfold runLine
  rw [hst]
  rfl

/-- A line of which one word is kept is that keyword without a label and without arguments. -/
theorem runLine_of_bare (next : Option LineRunner) {line : Nat} {text : String}
    {asm : Assembler} {word : Token} {keyword : Keyword}
    (h : asm.state.passOver? (asm.state.rawTokens line text.toList) =
      some (bareKeyword line word))
    (hk : Keyword.ofWord? word.text = some keyword)
    (harity : (keyword.checksOwnArity || keyword.arity.accepts 0) = true) :
    runLine next line text asm = (asm.atLine line).keywordBody next keyword none word [] := by
  have hst : statement line text { asm.state with line } =
      (bareKeyword line word, { asm.state with line }) := statement_of_passOver? h
  have hbody := @execute_keyword next
    { start := .start line, operation := some (.keyword word []) } word [] keyword rfl rfl hk harity
    (asm.atLine line)
  unfold runLine
  rw [hst]
  exact hbody

/-- A line of a repeat that opens and closes none does nothing. -/
theorem runLine_of_repeats (asm : Assembler) (next : Option LineRunner) {line : Nat}
    {text : String} (hm : asm.state.macroDefs = []) (hr : asm.state.repeats ≠ [])
    (hw : asm.state.writtenKeyword? [.rept, .endr] line text = none) :
    runLine next line text asm = asm.atLine line := by
  have hpass := asm.state.passOver?_of_repeats hm hr line text.toList
  rw [State.writtenKeyword?_eq_none hw] at hpass
  exact runLine_of_ignored next hpass

/-- A line of a repeat that opens or closes one does only that. -/
theorem exists_runLine_of_repeats (asm : Assembler) (next : Option LineRunner) {line : Nat}
    {text : String} (hm : asm.state.macroDefs = []) (hr : asm.state.repeats ≠ [])
    {keyword : Keyword}
    (hw : asm.state.writtenKeyword? [.rept, .endr] line text = some keyword) :
    (keyword = .rept ∨ keyword = .endr) ∧ ∃ word,
      runLine next line text asm = (asm.atLine line).keywordBody next keyword none word [] := by
  have hpass := asm.state.passOver?_of_repeats hm hr line text.toList
  obtain ⟨word, hfound, hk⟩ := State.writtenKeyword?_eq_some hw
  have hkeyword := (findKeyword?_eq_some hfound).2
  rw [List.mem_cons, List.mem_singleton] at hkeyword
  rw [hfound] at hpass
  refine ⟨hkeyword, word, runLine_of_bare next hpass hk ?_⟩
  rcases hkeyword with rfl | rfl <;> rfl

/-! ## What a parsed line does -/

/-- A line that is not carried out adds reports and nothing else. -/
theorem runLine_of_not_parsed (next : Option LineRunner) {line : Nat} {text : String}
    {asm : Assembler} (h : parsed? line text asm = none) :
    ∃ diagnostics, runLine next line text asm =
      (asm.atLine line).mapState fun st => { st with diagnostics } := by
  obtain ⟨diagnostics, hst⟩ := statement_footprint line text { asm.state with line }
  refine ⟨diagnostics, ?_⟩
  rw [runLine_eq_of_not_parsed next h, hst]
  rfl

/-- Parsing a line adds reports and nothing else. -/
theorem parsed?_footprint {line : Nat} {text : String} {asm asm' : Assembler} {parsed : Line}
    (h : parsed? line text asm = some (parsed, asm')) :
    ∃ diagnostics, asm' = (asm.atLine line).mapState fun st => { st with diagnostics } := by
  obtain ⟨diagnostics, hst⟩ := statement_footprint line text { asm.state with line }
  obtain ⟨st, hparsed, rfl⟩ := of_parsed? h
  rw [hparsed] at hst
  exact ⟨diagnostics, by rw [show st = _ from hst]; rfl⟩

end Assembler

end Sm83Asm
