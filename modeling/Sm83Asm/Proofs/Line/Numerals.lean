import Sm83Asm.Link.Compile
import Sm83Asm.Proofs.Line.Written
import Sm83Asm.Proofs.Numeral.Spelled

set_option autoImplicit false

/-!
# Numeric literals on a line

Scanning a line and reading a literal look at digits in different ways: the scanner counts the
characters that may follow the mark of a radix, and reading adds up their values. This module shows
that the two agree. A literal that stands alone behind a keyword is cut off the line as one token,
whatever the digits of the options are and although `%` and `&` can be operators, and its value is
the number that it spells or, when that has more than 32 bits, an error.

Main statement: `numeral_roundTrip`.
-/

namespace Sm83Asm

open Numeral

/-! ## The length of a literal -/

section Scanning

variable {options : Options} {radix : Radix} {ctx : ScanContext}

theorem countWhile_of_all {p : Char → Bool} {cs : List Char} (h : ∀ c ∈ cs, p c = true) :
    countWhile p cs = cs.length := by
  rw [countWhile, List.takeWhile_eq_self_iff.2 h]

theorem digitsLength_row {isDigit : Char → Bool} {ds : List Nat} {cs : List Char}
    (h : DigitRow options radix ds cs)
    (hdigit : ∀ d c, radix.Writes options d c → isDigit c = true) :
    digitsLength isDigit cs = cs.length := by
  apply countWhile_of_all
  intro c hc
  rcases writes_of_mem_row h c hc with rfl | ⟨d, hd⟩
  · rfl
  · rw [hdigit d c hd, Bool.or_true]

theorem markedLength_row {isDigit : Char → Bool} {ds : List Nat} {cs : List Char}
    (h : DigitRow options radix ds cs) (hne : ds ≠ [])
    (hdigit : ∀ d c, radix.Writes options d c → isDigit c = true) :
    markedLength isDigit cs = cs.length + 1 := by
  have hpos : cs.length ≠ 0 := by
    cases h with
    | nil => exact absurd rfl hne
    | underscore => simp
    | digit => simp
  rw [markedLength, digitsLength_row h hdigit]
  split
  · rename_i hzero
    exact absurd hzero hpos
  · rfl

theorem decimalLength_row {ds : List Nat} {cs : List Char} (h : DigitRow options .decimal ds cs) :
    decimalLength cs = cs.length := by
  have hwhole : digitsLength Char.isDigit cs = cs.length := by
    apply countWhile_of_all
    intro c hc
    rcases isDigit_of_decimal h c hc with rfl | hdigit
    · rfl
    · rw [hdigit, Bool.or_true]
  simp only [decimalLength, hwhole, List.drop_length]

/-- Where a number can begin, a literal takes all of a text. -/
theorem numberLength_of_spells (hr : radix.Readable options) {n : Nat} {text : String}
    (h : Spells options radix n text) (hoptions : ctx.options = options)
    (hprev : ctx.prev.any TokenKind.endsValue = false) :
    text.toList ≠ [] ∧ numberLength ctx text.toList = text.toList.length := by
  obtain ⟨ds, cs, hrow, hne, hfirst, -, rfl⟩ := h
  rw [String.toList_ofList]
  have hread : ∀ d c, radix.Writes options d c → (radix.digit? options c).isSome = true := by
    intro d c hc
    rw [digit?_of_writes hr hc]
    rfl
  cases radix with
  | hexadecimal =>
    refine ⟨by simp [Radix.mark], ?_⟩
    exact markedLength_row hrow hne hread
  | binary =>
    refine ⟨by simp [Radix.mark], ?_⟩
    have hlength : markedLength options.binaryList.contains cs = cs.length + 1 :=
      markedLength_row hrow hne fun d c (hc : Radix.Writes options .binary d c) =>
        List.contains_iff_mem.2 (List.mem_of_getElem? hc.2)
    simpa [numberLength, Radix.mark, hprev, hoptions] using hlength
  | octal =>
    refine ⟨by simp [Radix.mark], ?_⟩
    have hlength := markedLength_row hrow hne hread
    simpa [numberLength, Radix.mark, hprev, Radix.digit?] using hlength
  | decimal =>
    obtain ⟨c, rest, rfl, hc⟩ := exists_cons_of_decimal hrow hne (hfirst rfl)
    refine ⟨by simp, ?_⟩
    have hmark : ∀ x : Char, x.isDigit = false → (c == x) = false := fun x hx =>
      beq_eq_false_iff_ne.2 (ne_of_isDigit hc hx)
    simp only [Radix.mark, List.nil_append, numberLength, hmark '$' rfl, hmark '%' rfl,
      hmark '&' rfl, hmark backQuote rfl, hc, Bool.false_and, Bool.false_eq_true, if_false, if_true,
      decimalLength_row hrow]

/-! ## Matches -/

/-- What a number can begin with. -/
theorem head_of_numberLength {c : Char} {cs : List Char} (h : numberLength ctx (c :: cs) ≠ 0) :
    c ∈ ['$', '%', '&', backQuote] ∨ c.isDigit = true := by
  by_contra hnot
  simp only [List.mem_cons, List.not_mem_nil, or_false, not_or] at hnot
  obtain ⟨⟨hdollar, hpercent, hand, hquote⟩, hdigit⟩ := hnot
  exact h (by simp [numberLength, hdollar, hpercent, hand, hquote, hdigit])

/-- A number begins with nothing that the rules in front of it look for. -/
theorem ne_of_numberLength {c : Char} {cs : List Char} (h : numberLength ctx (c :: cs) ≠ 0) :
    ∀ x ∈ [' ', '\t', '\r', ';', '#', '"', '\x7b', '\\'], c ≠ x := by
  have hnot : ∀ x ∈ [' ', '\t', '\r', ';', '#', '"', '\x7b', '\\'],
      x ∉ ['$', '%', '&', backQuote] ∧ x.isDigit = false := by
    simp [backQuote]
  intro x hx
  rcases head_of_numberLength h with hmark | hdigit
  · rintro rfl
    exact (hnot c hx).1 hmark
  · exact ne_of_isDigit hdigit (hnot x hx).2

/-- A number that takes all of a text is the match at its head. -/
theorem scanTop_number {pos : Nat} {c : Char} {rest : List Char}
    (h : numberLength ctx (c :: rest) = (c :: rest).length) :
    scanTop ctx pos (c :: rest) = some { kind := .number, length := (c :: rest).length } := by
  have hother := ne_of_numberLength (h.trans_ne (by simp))
  simp only [List.forall_mem_cons, List.not_mem_nil, false_implies, implies_true, and_true]
    at hother
  obtain ⟨hblank, htab, hreturn, hsemicolon, hhash, hquote, hbrace, hslash⟩ := hother
  -- The rules in front of numbers find nothing, and those behind find nothing longer.
  have hcandidates : candidates ctx pos (c :: rest) =
      List.replicate 7 none ++ some ⟨.number, (c :: rest).length, []⟩ ::
        (candidates ctx pos (c :: rest)).drop 8 := by
    have hspace : spaceLength (c :: rest) = 0 := by
      simp [spaceLength, countWhile, hblank, htab, hreturn]
    have hcomment : commentLength (c :: rest) = 0 := by simp [commentLength, hsemicolon]
    have hdirective : directiveLength (c :: rest) = 0 := by simp [directiveLength, hhash]
    have hargument : macroArgumentLength (c :: rest) = 0 := by simp [macroArgumentLength, hslash]
    have hunique : uniqueLabelLength (c :: rest) = 0 := by simp [uniqueLabelLength, hslash]
    simp only [candidates, hspace, hcomment, hdirective, hargument, hunique, h]
    simp [delimited, hquote, hbrace, ofLength]
  have hback : ∀ k ∈ (candidates ctx pos (c :: rest)).drop 8,
      matchedLength k ≤ (c :: rest).length := by
    rintro (_ | k) hk
    · exact Nat.zero_le _
    · exact (fits_of_mem_candidates (List.mem_of_mem_drop hk)).whole.le
  rw [scanTop, hcandidates]
  exact foldl_longer_of_longest (by simp [matchedLength]) hback

theorem scanTop_blank (pos : Nat) (cs : List Char) :
    scanTop ctx pos (' ' :: cs) = some { kind := .space, length := spaceLength (' ' :: cs) } := by
  have hword : headWord (' ' :: cs) = "" := by simp [headWord, Text.isWordChar]
  have hkeyword : keywordLength ctx (' ' :: cs) = 0 := by
    rw [keywordLength, hword, show Keyword.ofWord? "" = none by decide +kernel]
  have hopcode : opcodeLength (' ' :: cs) = 0 := by
    rw [opcodeLength, hword, show isMnemonic "" = false by decide +kernel, if_neg (by simp)]
  obtain ⟨n, hn⟩ : ∃ n, spaceLength (' ' :: cs) = n + 1 :=
    ⟨(cs.takeWhile fun c => c == ' ' || c == '\t' || c == '\r').length, by
      simp [spaceLength, countWhile]⟩
  simp [scanTop, candidates, hkeyword, hopcode, hn, commentLength, directiveLength, delimited,
    macroArgumentLength, uniqueLabelLength, numberLength, backQuote, identifierLength,
    operatorLength, digraphs, operatorChars, literalLength, ofLength, longer]

theorem scanTop_margin (pos : Nat) (cs : List Char) :
    scanTop ctx pos (' ' :: ' ' :: 'd' :: cs) = some { kind := .space, length := 2 } := by
  have htwo : spaceLength (' ' :: ' ' :: 'd' :: cs) = 2 := by simp [spaceLength, countWhile]
  rw [scanTop_blank, htwo]

/-- The blank in front of a number. -/
theorem scanTop_gap (pos : Nat) {ctx' : ScanContext} {c : Char} {cs : List Char}
    (h : numberLength ctx' (c :: cs) ≠ 0) :
    scanTop ctx pos (' ' :: c :: cs) = some { kind := .space, length := 1 } := by
  have hone : spaceLength (' ' :: c :: cs) = 1 := by
    simp [spaceLength, countWhile, ne_of_numberLength h]
  rw [scanTop_blank, hone]

theorem ofWord?_db : Keyword.ofWord? "db" = some .db := by decide +kernel

/-- The keyword `db` in front of a blank. -/
theorem scanTop_db (pos : Nat) (cs : List Char) :
    scanTop ctx pos ('d' :: 'b' :: ' ' :: cs) = some { kind := .keyword, length := 2 } := by
  have hword : headWord ('d' :: 'b' :: ' ' :: cs) = "db" := by
    simp [headWord, Text.isWordChar]
  have hkeyword : keywordLength ctx ('d' :: 'b' :: ' ' :: cs) = 2 := by
    rw [keywordLength, hword, ofWord?_db]
    simp [Keyword.isExtension, countWhile, Text.isWordChar]
  have hopcode : opcodeLength ('d' :: 'b' :: ' ' :: cs) = 0 := by
    rw [opcodeLength, hword, show isMnemonic "db" = false by decide +kernel, if_neg (by simp)]
  have hidentifier : identifierLength ('d' :: 'b' :: ' ' :: cs) = 2 := by
    have hregister : Text.sameWord "db" "hl" = false := by decide +kernel
    simp [identifierLength, Text.isIdentChar, Text.isWordChar, hregister]
  simp [scanTop, candidates, hkeyword, hopcode, hidentifier, spaceLength, countWhile, commentLength,
    directiveLength, delimited, macroArgumentLength, uniqueLabelLength, numberLength, backQuote,
    operatorLength, digraphs, operatorChars, literalLength, ofLength, longer]

end Scanning

/-! ## Lines -/

/-- A match without others inside is a piece of its own. -/
theorem piecesFrom_append (line : Nat) {ctx : ScanContext} {pos column : Nat} {kind : TokenKind}
    {front rest : List Char} (hne : front ≠ [])
    (h : scanTop ctx pos (front ++ rest) = some { kind, length := front.length }) :
    piecesFrom line ⟨ctx, pos, column⟩ (front ++ rest) =
      ⟨⟨kind, String.ofList front, line, column⟩, [⟨kind, pos, front.length⟩]⟩ ::
        piecesFrom line
          ⟨if kind.isTrivia || kind == .comment then ctx else { ctx with prev := some kind },
            pos + front.length, column + Text.byteLength front⟩ rest := by
  obtain ⟨c, cs, rfl⟩ := List.exists_cons_of_ne_nil hne
  rw [List.cons_append] at h ⊢
  have hmatch : Cursor.matchAt ⟨ctx, pos, column⟩ (c :: (cs ++ rest)) =
      { kind, length := (c :: cs).length } := by rw [Cursor.matchAt, h, Option.getD_some]
  have htake : (c :: (cs ++ rest)).take (c :: cs).length = c :: cs := List.take_left
  have hdrop : (cs ++ rest).drop ((c :: cs).length - 1) = rest := List.drop_left
  rw [piecesFrom, hmatch]
  simp only [Cursor.piece, Cursor.advance, htake, hdrop, List.nil_append]

/-- The tokens between both ends of a line that is `db` with a literal. -/
def byteTokens (line : Nat) (text : String) : List Token :=
  [⟨.space, "  ", line, 0⟩, ⟨.keyword, "db", line, 2⟩, ⟨.space, " ", line, 4⟩,
    ⟨.number, text, line, 5⟩]

/-- The line `db` with a literal. -/
def byteLine (line : Nat) (text : String) : Line :=
  { start := .start line
    operation := some (.keyword ⟨.keyword, "db", line, 2⟩ [.number ⟨.number, text, line, 5⟩]) }

section Reading

variable {st : State} {radix : Radix} {n : Nat} {text : String}

/-- A literal behind `db` is cut off as one token. -/
theorem piecesFrom_byteLine (hr : radix.Readable st.options) (h : Spells st.options radix n text)
    (line : Nat) :
    piecesFrom line st.cursor ("  db " ++ text).toList =
      [⟨⟨.space, "  ", line, 0⟩, [⟨.space, 0, 2⟩]⟩, ⟨⟨.keyword, "db", line, 2⟩, [⟨.keyword, 2, 2⟩]⟩,
        ⟨⟨.space, " ", line, 4⟩, [⟨.space, 4, 1⟩]⟩,
        ⟨⟨.number, text, line, 5⟩, [⟨.number, 5, text.toList.length⟩]⟩] := by
  let before : ScanContext := { extensions := st.extensions, options := st.options }
  -- Behind the keyword no value is complete, so a number can begin.
  let after : ScanContext := { before with prev := some .keyword }
  obtain ⟨hne, hlength⟩ :
      text.toList ≠ [] ∧ numberLength after text.toList = text.toList.length :=
    numberLength_of_spells hr h rfl rfl
  obtain ⟨c, cs, hcs⟩ := List.exists_cons_of_ne_nil hne
  rw [hcs] at hlength
  have hchars : ("  db " ++ text).toList =
      [' ', ' '] ++ (['d', 'b'] ++ ([' '] ++ ((c :: cs) ++ []))) := by simp [hcs]
  have htext : String.ofList (c :: cs) = text := by rw [← hcs, String.ofList_toList]
  have hnumber : scanTop after 5 ((c :: cs) ++ []) = some ⟨.number, (c :: cs).length, []⟩ := by
    rw [List.append_nil]
    exact scanTop_number hlength
  have hgap : scanTop after 4 ([' '] ++ ((c :: cs) ++ [])) = some ⟨.space, 1, []⟩ := by
    rw [List.append_nil]
    exact scanTop_gap 4 (hlength.trans_ne (by simp))
  have hmarginPiece : ∀ rest, piecesFrom line ⟨before, 0, 0⟩ ([' ', ' '] ++ (['d', 'b'] ++ rest)) =
      ⟨⟨.space, "  ", line, 0⟩, _⟩ :: piecesFrom line ⟨before, 2, 2⟩ (['d', 'b'] ++ rest) :=
    fun rest => piecesFrom_append line (by simp) (scanTop_margin 0 ('b' :: rest))
  have hwordPiece : ∀ rest, piecesFrom line ⟨before, 2, 2⟩ (['d', 'b'] ++ ([' '] ++ rest)) =
      ⟨⟨.keyword, "db", line, 2⟩, _⟩ :: piecesFrom line ⟨after, 4, 4⟩ ([' '] ++ rest) :=
    fun rest => piecesFrom_append line (by simp) (scanTop_db 2 rest)
  have hgapPiece : piecesFrom line ⟨after, 4, 4⟩ ([' '] ++ _) =
      ⟨⟨.space, " ", line, 4⟩, _⟩ :: piecesFrom line ⟨after, 5, 5⟩ ((c :: cs) ++ []) :=
    piecesFrom_append line (by simp) hgap
  rw [hchars]
  show piecesFrom line ⟨before, 0, 0⟩ _ = _
  rw [hmarginPiece, hwordPiece, hgapPiece, piecesFrom_append line (by simp) hnumber, piecesFrom,
    htext, hcs]
  rfl

theorem rawTokens_byteLine (hr : radix.Readable st.options) (h : Spells st.options radix n text)
    (line : Nat) :
    st.rawTokens line ("  db " ++ text).toList =
      .start line :: byteTokens line text ++
        [Token.lineEnd line ("  db " ++ text).toList] := by
  rw [State.rawTokens, piecesFrom_byteLine hr h line]
  rfl

/-- Nothing in the line is replaced. -/
theorem tokenize_byteLine (hr : radix.Readable st.options) (h : Spells st.options radix n text)
    (line : Nat) :
    st.tokenize line ("  db " ++ text).toList =
      (st.rawTokens line ("  db " ++ text).toList, []) := by
  apply State.tokenize_eq_rawTokens
  rw [piecesFrom_byteLine hr h line]
  simp [State.substitution]

/-- The tokens are parsed to `db` with the literal as its argument. -/
theorem parseLine_byteTokens (line : Nat) (text : String) {eol : Token}
    (heol : eol.kind = .endOfLine) :
    parseLine (.start line :: byteTokens line text ++ [eol]) =
      (.line (byteLine line text), []) := by
  have hends : Parser.endsArguments eol = true := by simp [Parser.endsArguments, heol]
  have hargs : Parser.expressionList eol [⟨.number, text, line, 5⟩, eol] =
      .ok ([.number ⟨.number, text, line, 5⟩], [eol]) :=
    Parser.expressionList_operand (by rw [Parser.readOperand_cons]) rfl hends
  have hline : Parser.line eol
      [.start line, ⟨.keyword, "db", line, 2⟩, ⟨.number, text, line, 5⟩, eol] =
        .ok (byteLine line text) :=
    @line_of_expressionList eol _ _ [⟨.number, text, line, 5⟩] _ none .db rfl heol rfl ofWord?_db
      rfl (by simp) (by simp) (by simp) hargs
  have hend : Parser.endToken (.start line :: byteTokens line text ++ [eol]) = eol := by
    rw [Parser.endToken, List.getLast?_concat]
    simp [heol]
  have hseen : (Token.start line :: byteTokens line text ++ [eol]).filter
      (fun t => !t.kind.isTrivia) =
        [.start line, ⟨.keyword, "db", line, 2⟩, ⟨.number, text, line, 5⟩, eol] := by
    simp [byteTokens, Token.start, TokenKind.isTrivia, heol]
  unfold parseLine
  dsimp only
  rw [hend, hseen, hline]

/-- The line is read without a report. -/
theorem read_byteLine (hr : radix.Readable st.options) (h : Spells st.options radix n text)
    (line : Nat) : st.read line ("  db " ++ text) = (.line (byteLine line text), st) := by
  rw [State.read, tokenize_byteLine hr h, rawTokens_byteLine hr h]
  dsimp only
  rw [parseLine_byteTokens line text rfl]
  simp [State.record]

/-- The argument has the number that it spells, or it is an error. -/
theorem evaluate_number (hr : radix.Readable st.options) {expected : Expected}
    (hexpected : expected ≠ .text) {t : Token} (h : Spells st.options radix n t.text) :
    st.evaluating (st.scope.evaluate expected (.number t)) =
      if n < 0x100000000 then (.number (UInt32.ofNat n).toInt32, st)
      else (.number 0, st.fault (.invalidNumber t.text) t) := by
  have hvalue := value?_of_spells hr h
  have hcoerce : ∀ v, st.scope.coerce expected t (.number v) = pure (.number v) := by
    intro v
    cases expected with
    | text => exact absurd rfl hexpected
    | _ => rfl
  have heval : st.scope.evaluate expected (.number t) =
      st.scope.value (.number t) >>= st.scope.coerce expected t := if_pos rfl
  rw [heval, Scope.value]
  by_cases hn : n < 0x100000000
  · rw [if_pos hn] at hvalue ⊢
    rw [show st.scope.state.options = st.options from rfl, hvalue]
    simp [State.evaluating, hcoerce, State.record]
  · rw [if_neg hn] at hvalue ⊢
    rw [show st.scope.state.options = st.options from rfl, hvalue]
    simp [State.evaluating, hcoerce, State.fault]

end Reading

/-! ## All ways of giving a number -/

/-- A number that is given as a literal keeps its value: on a source line, where scanning, parsing
and evaluation have to agree and a number with more than 32 bits is an error; in the text that an
interpolation puts on the line; and in a definition on the command line, there also with a minus in
front. -/
theorem numeral_roundTrip :
    (∀ (st : State) (line : Nat) (radix : Radix) (n : Nat) (text : String) (expected : Expected),
      radix.Readable st.options → expected ≠ .text → Spells st.options radix n text →
      ∃ parsed word arg, st.read line ("  db " ++ text) = (.line parsed, st) ∧
        parsed.operation = some (.keyword word [arg]) ∧
        st.evaluating (st.scope.evaluate expected arg) =
          if n < 0x100000000 then (.number (UInt32.ofNat n).toInt32, st)
          else (.number 0, st.fault (.invalidNumber text) arg.token)) ∧
    (∀ (options : Options) (v : Int32), ∃ text,
      State.formatValue none (.number v) = .ok text ∧ value? options text = some v) ∧
    (∀ (radix : Radix) (n : Nat) (name text : String),
      Spells {} radix n text → n < 0x100000000 → '=' ∉ name.toList →
      Text.trim name.toList ≠ [] →
      parseDefine (name ++ "=" ++ text) =
          .ok (String.ofList (Text.trim name.toList), (UInt32.ofNat n).toInt32) ∧
        parseDefine (name ++ "=-" ++ text) =
          .ok (String.ofList (Text.trim name.toList), -(UInt32.ofNat n).toInt32)) := by
  refine ⟨?_, value?_formatValue, ?_⟩
  · intro st line radix n text expected hr hexpected h
    exact ⟨_, _, _, read_byteLine hr h line, rfl, evaluate_number hr hexpected h⟩
  · intro radix n name text h hn hequals hname
    exact parseDefine_of_spells h hn hequals hname

/-- A state in which dots and crosses are the digits of binary. -/
def crossState : State :=
  { config := {}, random := .ofSeed 0, options := { binaryDigits := ('.', 'X') } }

theorem spells_crosses : Spells crossState.options .binary 5 "%_.X_.X" :=
  ⟨[0, 1, 0, 1], ['_', '.', 'X', '_', '.', 'X'],
    .underscore (.digit ⟨by decide, rfl⟩ (.digit ⟨by decide, rfl⟩ (.underscore
      (.digit ⟨by decide, rfl⟩ (.digit ⟨by decide, rfl⟩ .nil))))),
    by simp, by simp, rfl, rfl⟩

/-- Both cases of a letter, a zero in front and a number with the highest bit. -/
theorem spells_highestBit : Spells {} .hexadecimal 0xFFFFFFFE "$0_FfFffFFe" :=
  ⟨[0, 15, 15, 15, 15, 15, 15, 15, 14], ['0', '_', 'F', 'f', 'F', 'f', 'f', 'F', 'F', 'e'],
    .digit ⟨by decide, .inl rfl⟩ (.underscore (.digit ⟨by decide, .inr rfl⟩
      (.digit ⟨by decide, .inl rfl⟩ (.digit ⟨by decide, .inr rfl⟩ (.digit ⟨by decide, .inl rfl⟩
        (.digit ⟨by decide, .inl rfl⟩ (.digit ⟨by decide, .inr rfl⟩
          (.digit ⟨by decide, .inr rfl⟩ (.digit ⟨by decide, .inl rfl⟩ .nil))))))))),
    by simp, by simp, rfl, rfl⟩

theorem numeral_roundTrip_crosses :
    (Radix.binary.Readable crossState.options ∧ Expected.number ≠ .text ∧
      Spells crossState.options .binary 5 "%_.X_.X" ∧
      ∃ parsed word arg, crossState.read 7 "  db %_.X_.X" = (.line parsed, crossState) ∧
        parsed.operation = some (.keyword word [arg]) ∧
        crossState.evaluating (crossState.scope.evaluate .number arg) = (.number 5, crossState)) ∧
    (∃ text, State.formatValue none (.number (-2)) = .ok text ∧
      value? crossState.options text = some (-2)) ∧
    (Spells {} .hexadecimal 0xFFFFFFFE "$0_FfFffFFe" ∧ 0xFFFFFFFE < 0x100000000 ∧
      '=' ∉ " size ".toList ∧ Text.trim " size ".toList ≠ [] ∧
      parseDefine " size =$0_FfFffFFe" = .ok ("size", -2) ∧
      parseDefine " size =-$0_FfFffFFe" = .ok ("size", 2)) := by
  obtain ⟨hline, hprinted, hdefined⟩ := numeral_roundTrip
  have hr : Radix.binary.Readable crossState.options := fun _ => by decide
  have hexpected : Expected.number ≠ .text := by decide
  have hname : '=' ∉ " size ".toList ∧ Text.trim " size ".toList ≠ [] := by decide
  refine ⟨⟨hr, hexpected, spells_crosses, ?_⟩, hprinted _ _, spells_highestBit, by decide, hname.1,
    hname.2, ?_⟩
  · exact hline crossState 7 .binary 5 "%_.X_.X" .number hr hexpected spells_crosses
  · exact hdefined .hexadecimal 0xFFFFFFFE " size " "$0_FfFffFFe" spells_highestBit (by decide)
      hname.1 hname.2

end Sm83Asm
