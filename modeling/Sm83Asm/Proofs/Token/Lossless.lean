import Sm83Asm.Proofs.Token.Covering
import Sm83Asm.Proofs.Token.Scanned

set_option autoImplicit false

/-!
# Lexing loses nothing

A pass over a line goes from match to match, looks for replacements and writes down a token for
each match. Over stored text every step takes slices; this module has that pass, shows that it is
the one over characters, and reads off what its tokens spell.

Main statements: `lex?_eq_lex`, a pass over stored text never fails, and `State.lex_lossless`, its
tokens spell the line.
-/

namespace Sm83Asm

open Text (byteLength)

/-- The order of tokens: by column, and in one column by class. -/
def Token.sortsBefore (t u : Token) : Bool :=
  t.column < u.column || t.column == u.column &&
    TokenKind.all.idxOf t.kind ≤ TokenKind.all.idxOf u.kind

namespace Stored

/-! ## Passes over stored text -/

/-- What a match stands for. The name of a macro argument stands behind a backslash, and the
contents of an interpolation between its braces. -/
def substitution? (st : State) (seen : List Token) (kind : TokenKind) (text : List Char) :
    Option (Option (Except SubstitutionError String)) :=
  match kind with
  | .macroArgument => (from? text 1).map fun name => name.head?.map st.escapeText
  | .interpolation =>
    (between? text 1 (byteLength text - 1)).map fun inner => some (st.interpolate inner)
  | kind => some (st.substitution seen kind text)

/-- What looking for replacements in a match gives. -/
inductive Replaced where
  /-- There was none; reports so far. -/
  | kept (reports : List Report)
  | spliced (text : List Char)

/-- Looks for the first replacement among some matches. -/
def replace? (st : State) (line : Nat) (text : List Char) (seen : List Token) :
    List SubMatch → List Report → Option Replaced
  | [], reports => some (.kept reports)
  | m :: ms, reports => do
    let slice ← between? text m.start (m.start + m.length)
    match ← substitution? st seen m.kind slice with
    | some (.ok replacement) =>
      let front ← upTo? text m.start
      let back ← from? text (m.start + m.length)
      return .spliced (front ++ replacement.toList ++ back)
    | some (.error error) =>
      let token := ⟨m.kind, String.ofList slice, line, m.start⟩
      replace? st line text seen ms (reports ++ [.lexical (.substitution error) token])
    | none => replace? st line text seen ms reports

/-- The match at an offset; a character that no rule takes is one of its own. -/
def matchAt? (ctx : ScanContext) (text : List Char) (offset : Nat) : Option Match := do
  match ← scan? ctx text offset none with
  | some m => return m
  | none =>
    let rest ← from? text offset
    return { kind := .unknown, length := (rest.head?.map Char.utf8Size).getD 1 }

/-- The rest of a pass over a line, from an offset on. Tokens seen so far are given latest first. -/
def lexFrom? (st : State) (line : Nat) (substitute : Bool) (text : List Char) (ctx : ScanContext)
    (seen : List Token) (reports : List Report) (offset : Nat) : Option Lexed :=
  if _h : offset < byteLength text then
    match matchAt? ctx text offset with
    | none => none
    | some m =>
      let matched := if substitute then m.subs ++ [⟨m.kind, offset, m.length⟩] else []
      match replace? st line text seen matched reports with
      | none => none
      | some (.spliced next) => some (.expanded next)
      | some (.kept reports) =>
        match between? text offset (offset + m.length) with
        | none => none
        | some slice =>
          if 0 < m.length then
            let ctx :=
              if m.kind.isTrivia || m.kind == .comment then ctx
              else { ctx with prev := some m.kind }
            let token := ⟨m.kind, String.ofList slice, line, offset⟩
            lexFrom? st line substitute text ctx (token :: seen) reports (offset + m.length)
          else none
  else
    let tokens := classify (seen.reverse ++ [⟨.endOfLine, "", line, byteLength text⟩])
    some (.final (tokens.mergeSort Token.sortsBefore) reports)
termination_by byteLength text - offset

/-- One pass over a line. -/
def lex? (st : State) (line : Nat) (substitute : Bool) (text : List Char) : Option Lexed :=
  lexFrom? st line substitute text { extensions := st.extensions, options := st.options }
    [.start line] [] 0

/-! ## The slices of a pass -/

/-- Behind the backslash of a macro argument and between the braces of an interpolation, the slices
are whole. -/
theorem substitution?_eq (st : State) (seen : List Token) {kind : TokenKind} {length : Nat}
    {cs : List Char} (h : WellCut kind length cs) :
    substitution? st seen kind (cs.take length) =
      some (st.substitution seen kind (cs.take length)) := by
  unfold substitution?
  split
  · obtain ⟨c, hc⟩ := h.backslash rfl
    rw [hc]
    exact congrArg (Option.map fun name => name.head?.map st.escapeText)
      (from?_append ['\\'] [c])
  · obtain ⟨inner, hinner⟩ := h.braces rfl
    rw [hinner]
    have hslice := between?_take ('\x7b' :: inner ++ ['\x7d']) 1 inner.length
    have hlength : byteLength ('\x7b' :: inner ++ ['\x7d']) - 1 = 1 + byteLength inner := by
      rw [Text.byteLength_append, byteLength]
      show 1 + byteLength inner + (1 + 0) - 1 = _
      omega
    have htake : (('\x7b' :: inner ++ ['\x7d']).drop 1).take inner.length = inner := List.take_left
    have hone : byteLength (('\x7b' :: inner ++ ['\x7d']).take 1) = 1 := rfl
    rw [htake, hone] at hslice
    rw [hlength, hslice, State.substitution, List.cons_append, List.tail_cons, List.dropLast_concat]
    rfl
  · rfl

theorem expandIn?_cons (st : State) (whole : List Char) (seen : List Token) (m : SubMatch)
    (ms : List SubMatch) :
    st.expandIn? whole seen (m :: ms) =
      match st.substitution seen m.kind (m.slice whole) with
      | some (.ok text) => some (m.splice whole text)
      | _ => st.expandIn? whole seen ms := by
  rw [State.expandIn?, List.findSome?_cons]
  rcases st.substitution seen m.kind (m.slice whole) with _ | _ | _ <;> rfl

theorem failuresIn_cons (st : State) (line : Nat) (whole : List Char) (seen : List Token)
    (m : SubMatch) (ms : List SubMatch) :
    st.failuresIn line whole seen (m :: ms) =
      (match st.substitution seen m.kind (m.slice whole) with
        | some (.error error) => [.lexical (.substitution error)
            ⟨m.kind, String.ofList (m.slice whole), line, byteLength (whole.take m.start)⟩]
        | _ => []) ++ st.failuresIn line whole seen ms := by
  rw [State.failuresIn, List.filterMap_cons]
  dsimp only
  rcases st.substitution seen m.kind (m.slice whole) with _ | _ | _ <;> rfl

theorem replace?_eq (st : State) (line : Nat) {whole : List Char} (seen : List Token)
    {ms : List SubMatch} (h : ∀ m ∈ ms, WellCut m.kind m.length (whole.drop m.start))
    (reports : List Report) :
    replace? st line whole seen (ms.map (SubMatch.stored whole)) reports =
      some (match st.expandIn? whole seen ms with
        | some next => .spliced next
        | none => .kept (reports ++ st.failuresIn line whole seen ms)) := by
  induction ms generalizing reports with
  | nil => simp [replace?, State.expandIn?, State.failuresIn]
  | cons m ms ih =>
    obtain ⟨hm, hms⟩ := List.forall_mem_cons.1 h
    have hslice := between?_take whole m.start m.length
    have hsub := substitution?_eq st seen hm
    have hstop : byteLength (whole.take m.start) + byteLength ((whole.drop m.start).take m.length) =
        byteLength (whole.take (m.start + m.length)) := by
      rw [List.take_add, Text.byteLength_append]
    rw [List.map_cons, replace?]
    simp only [SubMatch.stored]
    rw [hslice]
    simp only [Option.bind_eq_bind, Option.bind_some, hsub]
    rw [expandIn?_cons, failuresIn_cons, SubMatch.slice]
    rcases st.substitution seen m.kind ((whole.drop m.start).take m.length) with
      _ | error | text
    · exact ih hms reports
    · simp only [ih hms, List.append_assoc]
    · simp only [hstop, upTo?_take, from?_take, Option.bind_some]
      rfl

theorem matchAt?_eq (cur : Cursor) (front : List Char) {cs : List Char} (hne : cs ≠ [])
    (hpos : cur.pos = front.length) :
    matchAt? cur.context (front ++ cs) (byteLength front) =
      some ((cur.matchAt cs).stored front cs) := by
  unfold matchAt? Cursor.matchAt
  rw [hpos]
  simp only [scan?_top, Option.bind_eq_bind, Option.bind_some]
  cases scanTop cur.context front.length cs with
  | some m => rfl
  | none =>
    cases cs with
    | nil => exact absurd rfl hne
    | cons c rest => simp [from?_append, Match.stored, byteLength]

/-- The rest of a pass, in characters. -/
def restOf (st : State) (line : Nat) (substitute : Bool) (whole : List Char) (seen : List Token)
    (reports : List Report) (cur : Cursor) (cs : List Char) : Lexed :=
  let pieces := piecesFrom line cur cs
  match if substitute then st.expandFrom? line whole seen cur cs else none with
  | some next => .expanded next
  | none =>
    .final ((classify (seen.reverse ++ pieces.map Piece.token ++
        [Token.lineEnd line whole])).mergeSort Token.sortsBefore)
      (reports ++ if substitute then st.failuresFrom line whole seen pieces else [])

/-- One step of a pass: the next match, what it is replaced by, and the token. -/
theorem restOf_cons (st : State) (line : Nat) (substitute : Bool) (whole : List Char)
    (seen : List Token) (reports : List Report) (cur : Cursor) (c : Char) (rest : List Char) :
    let m := cur.matchAt (c :: rest)
    let piece := cur.piece line m (c :: rest)
    restOf st line substitute whole seen reports cur (c :: rest) =
      match if substitute then st.expandIn? whole seen piece.matched else none with
      | some next => .expanded next
      | none => restOf st line substitute whole (piece.token :: seen)
          (reports ++ if substitute then st.failuresIn line whole seen piece.matched else [])
          (cur.advance m (c :: rest)) (rest.drop (m.length - 1)) := by
  intro m piece
  unfold restOf
  rw [piecesFrom, State.expandFrom?]
  cases substitute with
  | false => simp [m, piece]
  | true =>
    simp only [if_true]
    cases st.expandIn? whole seen piece.matched with
    | some next => rfl
    | none => simp [State.failuresFrom, m, piece]

/-- All that is matched at a place is well cut. -/
theorem wellCut_piece (cur : Cursor) (line : Nat) {front cs : List Char} (hne : cs ≠ [])
    (hpos : cur.pos = front.length) :
    ∀ s ∈ (cur.piece line (cur.matchAt cs) cs).matched,
      WellCut s.kind s.length ((front ++ cs).drop s.start) := by
  have hfits := cur.fits_matchAt hne
  intro s hs
  rcases List.mem_append.1 hs with hs | hs
  · exact hfits.subs front hpos.symm s hs
  · obtain rfl := List.mem_singleton.1 hs
    rw [hpos, List.drop_left]
    exact hfits.whole

/-- Looking for replacements at a place. -/
theorem replace?_piece (st : State) (line : Nat) (substitute : Bool) (seen : List Token)
    (reports : List Report) (cur : Cursor) {front cs : List Char} (hne : cs ≠ [])
    (hpos : cur.pos = front.length) :
    let m := (cur.matchAt cs).stored front cs
    let matched := (cur.piece line (cur.matchAt cs) cs).matched
    replace? st line (front ++ cs) seen
        (if substitute then m.subs ++ [⟨m.kind, byteLength front, m.length⟩] else []) reports =
      some (match if substitute then st.expandIn? (front ++ cs) seen matched else none with
        | some next => .spliced next
        | none => .kept (reports ++
            if substitute then st.failuresIn line (front ++ cs) seen matched else [])) := by
  intro m matched
  have hstored : m.subs ++ [⟨m.kind, byteLength front, m.length⟩] =
      matched.map (SubMatch.stored (front ++ cs)) := by
    simp [m, matched, Cursor.piece, Match.stored, SubMatch.stored, hpos]
  cases substitute with
  | false => simp [replace?]
  | true =>
    simp only [if_true]
    rw [hstored, replace?_eq st line seen (wellCut_piece cur line hne hpos)]

/-- A pass over stored text goes from match to match as one over characters does. -/
theorem lexFrom?_eq (st : State) (line : Nat) (substitute : Bool) (front : List Char)
    (seen : List Token) (reports : List Report) (cur : Cursor) (cs : List Char)
    (hpos : cur.pos = front.length) (hcolumn : cur.column = byteLength front) :
    lexFrom? st line substitute (front ++ cs) cur.context seen reports (byteLength front) =
      some (restOf st line substitute (front ++ cs) seen reports cur cs) := by
  match cs with
  | [] =>
    rw [lexFrom?, dif_neg (by simp)]
    unfold restOf
    rw [piecesFrom, State.expandFrom?]
    cases substitute <;> simp [State.failuresFrom, Token.lineEnd]
  | c :: rest =>
    have hne := List.cons_ne_nil c rest
    have hreplace := replace?_piece st line substitute seen reports cur hne hpos
    have hcut := (cur.fits_matchAt hne).whole
    have hlt : byteLength front < byteLength (front ++ c :: rest) := by
      have := Text.byteLength_pos hne
      rw [Text.byteLength_append]
      omega
    rw [lexFrom?, dif_pos hlt, matchAt?_eq cur front hne hpos, restOf_cons]
    generalize cur.matchAt (c :: rest) = m at hreplace hcut ⊢
    have hslice : between? (front ++ c :: rest) (byteLength front)
        (byteLength front + (m.stored front (c :: rest)).length) =
          some ((c :: rest).take m.length) := by
      have h := between?_take (front ++ c :: rest) front.length m.length
      rwa [List.take_left, List.drop_left] at h
    have hdrop : rest.drop (m.length - 1) = (c :: rest).drop m.length := by
      rw [← Nat.succ_pred_eq_of_pos hcut.pos]
      rfl
    dsimp only at hreplace ⊢
    rw [hreplace]
    -- Either something is replaced in the match, or it becomes a token and the pass goes on
    -- behind.
    cases if substitute then
        st.expandIn? (front ++ c :: rest) seen (cur.piece line m (c :: rest)).matched
      else none with
    | some next => rfl
    | none =>
      have hadvances : 0 < (m.stored front (c :: rest)).length :=
        Text.byteLength_pos hcut.take_ne_nil
      have hnext := lexFrom?_eq st line substitute (front ++ (c :: rest).take m.length)
        ((cur.piece line m (c :: rest)).token :: seen)
        (reports ++ if substitute then
          st.failuresIn line (front ++ c :: rest) seen (cur.piece line m (c :: rest)).matched
          else []) (cur.advance m (c :: rest)) ((c :: rest).drop m.length)
        (by
          rw [List.length_append, List.length_take, Nat.min_eq_left hcut.le, Cursor.advance, hpos])
        (by rw [Text.byteLength_append, Cursor.advance, hcolumn])
      rw [List.append_assoc, List.take_append_drop, Text.byteLength_append] at hnext
      dsimp only
      rw [hslice, hdrop, ← hnext]
      dsimp only
      rw [if_pos hadvances, Cursor.piece, hcolumn]
      rfl
termination_by cs.length
decreasing_by
  have := hcut.pos
  simp only [List.length_drop, List.length_cons]
  omega

end Stored

/-! ## Tokens in order -/

theorem TokenRow.column_lt {line column : Nat} {ts : List Token} {cs : List Char}
    (h : TokenRow line column ts cs) :
    ∀ t ∈ ts, column ≤ t.column ∧ t.column < column + byteLength cs := by
  induction h with
  | nil => simp
  | @cons column t ts rest hne hline hcolumn hword hrest ih =>
    have hpos := Text.byteLength_pos hne
    rw [Text.byteLength_append]
    refine List.forall_mem_cons.2 ⟨by omega, fun u hu => ?_⟩
    have := ih u hu
    omega

theorem TokenRow.pairwise_column {line column : Nat} {ts : List Token} {cs : List Char}
    (h : TokenRow line column ts cs) : ts.Pairwise fun t u => t.column < u.column := by
  induction h with
  | nil => exact .nil
  | @cons column t ts rest hne hline hcolumn hword hrest ih =>
    refine .cons (fun u hu => ?_) ih
    have hpos := Text.byteLength_pos hne
    have := (hrest.column_lt u hu).1
    omega

/-- The tokens of a line stand in order, so sorting them moves none. -/
theorem mergeSort_between {line : Nat} {inner : List Token} {cs : List Char}
    (h : TokenRow line 0 inner cs) :
    (.start line :: inner ++ [Token.lineEnd line cs]).mergeSort Token.sortsBefore =
      .start line :: inner ++ [Token.lineEnd line cs] := by
  have hlt : ∀ {t u : Token}, t.column < u.column → t.sortsBefore u = true := fun hc => by
    simp [Token.sortsBefore, hc]
  have hstart : ∀ u : Token, (Token.start line).sortsBefore u = true := by
    intro u
    rcases Nat.eq_zero_or_pos u.column with hu | hu
    · simp [Token.sortsBefore, Token.start, hu, TokenKind.all]
    · exact hlt hu
  apply List.mergeSort_of_pairwise
  refine List.pairwise_append.2 ⟨.cons (fun u _ => hstart u) ?_, List.pairwise_singleton _ _, ?_⟩
  · exact h.pairwise_column.imp hlt
  · intro t ht u hu
    obtain rfl := List.mem_singleton.1 hu
    rcases List.mem_cons.1 ht with rfl | ht
    · exact hstart _
    · exact hlt (by simpa [Token.lineEnd] using (h.column_lt t ht).2)

/-! ## Lossless lexing -/

/-- The tokens of a line, from its start to its end, spell it. -/
structure Lossless (line : Nat) (cs : List Char) (inner : List Token) : Prop where
  /-- No token between the start and the end is empty. -/
  nonempty : ∀ t ∈ inner, t.text ≠ "" ∧ t.line = line
  spells : inner.flatMap (·.text.toList) = cs
  /-- Every token stands where the texts in front of it end. -/
  column : ∀ front t back, inner = front ++ t :: back →
    t.column = byteLength (front.flatMap (·.text.toList))
  /-- No keyword and no mnemonic is cut out of a longer identifier. -/
  word : ∀ front t back, inner = front ++ t :: back → t.kind = .keyword ∨ t.kind = .opcode →
    ¬ ∃ c rest, back.flatMap (·.text.toList) = c :: rest ∧ Text.isIdentChar c = true

theorem TokenRow.lossless {line : Nat} {inner : List Token} {cs : List Char}
    (h : TokenRow line 0 inner cs) :
    Lossless line cs inner where
  nonempty t ht := by
    obtain ⟨hline, hne⟩ := h.line_eq t ht
    refine ⟨fun hempty => hne ?_, hline⟩
    rw [hempty]
    rfl
  spells := h.text_eq
  column front t back hsplit := by rw [h.column_eq hsplit, Nat.zero_add]
  word front t back hsplit hk := by
    rintro ⟨c, rest, hback, hc⟩
    have := h.behind_word hsplit hk
    rw [hback] at this
    exact absurd hc (by simpa using this)

theorem mergeSort_tokensOf (st : State) (line : Nat) (cs : List Char) :
    (tokensOf line cs (piecesFrom line st.cursor cs)).mergeSort Token.sortsBefore =
      tokensOf line cs (piecesFrom line st.cursor cs) := by
  obtain ⟨inner, heq, hrow⟩ := tokensOf_piecesFrom line st.cursor.context cs
  have htokens : tokensOf line cs (piecesFrom line st.cursor cs) = _ := heq
  rw [htokens]
  exact mergeSort_between hrow

/-- A pass over stored text never fails, and it gives what a pass over characters gives. -/
theorem lex?_eq_lex (st : State) (line : Nat) (substitute : Bool) (cs : List Char) :
    Stored.lex? st line substitute cs = some (st.lex line substitute cs) := by
  have hsort := mergeSort_tokensOf st line cs
  refine (Stored.lexFrom?_eq st line substitute [] [.start line] [] st.cursor cs rfl rfl).trans ?_
  rw [List.nil_append]
  unfold Stored.restOf State.lex State.rawTokens
  dsimp only
  rw [List.nil_append]
  show some (match if substitute then _ else none with
    | some next => Lexed.expanded next
    | none => .final ((tokensOf line cs (piecesFrom line st.cursor cs)).mergeSort _) _) = _
  rw [hsort]
  cases substitute with
  | false => rfl
  | true => cases st.expandFrom? line cs [.start line] st.cursor cs <;> rfl

theorem tokens_of_lex {st : State} {line : Nat} {substitute : Bool} {cs : List Char}
    {tokens : List Token} {reports : List Report}
    (h : st.lex line substitute cs = .final tokens reports) :
    tokens = tokensOf line cs (piecesFrom line st.cursor cs) := by
  unfold State.lex at h
  split at h
  · split at h
    · exact absurd h (by simp)
    · injection h with htokens
      exact htokens.symm
  · injection h with htokens
    exact htokens.symm

/-- Lexing loses nothing. A pass over a line takes only slices that lie in the line and end between
characters, so it always comes to an end. Where nothing is replaced, its tokens are the start of
the line, tokens that spell the line from left to right, and the end; sorting them moves none. -/
theorem State.lex_lossless (st : State) (line : Nat) (substitute : Bool) (cs : List Char) :
    Stored.lex? st line substitute cs = some (st.lex line substitute cs) ∧
      ∀ tokens reports, st.lex line substitute cs = .final tokens reports →
        tokens.mergeSort Token.sortsBefore = tokens ∧
        ∃ inner, tokens = .start line :: inner ++ [⟨.endOfLine, "", line, byteLength cs⟩] ∧
          Lossless line cs inner := by
  refine ⟨lex?_eq_lex st line substitute cs, fun tokens reports h => ?_⟩
  obtain rfl := tokens_of_lex h
  obtain ⟨inner, heq, hrow⟩ := tokensOf_piecesFrom line st.cursor.context cs
  exact ⟨mergeSort_tokensOf st line cs, inner, heq, hrow.lossless⟩

end Sm83Asm
