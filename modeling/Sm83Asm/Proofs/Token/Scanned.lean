import Sm83Asm.Proofs.Token.Stored

set_option autoImplicit false

/-!
# Scanning stored text

The rules compete at every offset of a line, and those for strings and interpolations call for a
scan of what stands inside them. The loops of this module go over a text by byte offsets and fail
where a slice does or where a match takes nothing.

Main statements: `scan?_top` and `scan?_inner`. A scan never fails, at the top of a line as well as
between delimiters, and it finds the match that is found in characters, with every length and every
place counted in bytes.
-/

namespace Sm83Asm

open Text (byteLength)

namespace Stored

/-! ## Scanning -/

/-- How a rule finds what it takes. -/
inductive Matcher where
  | scan (scanner : Scanner)
  /-- Everything from one character to another. -/
  | delimited (opening closing : Char)

/-- A lexical rule. -/
structure Rule where
  kind : TokenKind
  matcher : Matcher
  /-- Never matches at the top of a line. -/
  subOnly : Bool := false
  /-- Classes inside which the rule may match. -/
  parents : List TokenKind := []

/-- The rules, in the order in which they win over equally long matches. -/
def rules : List Rule :=
  [ { kind := .space, matcher := .scan space },
    { kind := .comment, matcher := .scan comment },
    { kind := .directive, matcher := .scan directive },
    { kind := .string, matcher := .delimited '"' '"' },
    { kind := .interpolation, matcher := .delimited '\x7b' '\x7d',
      parents := [.string, .interpolation] },
    { kind := .escape, matcher := .scan (backslashed isEscaped), subOnly := true,
      parents := [.string] },
    { kind := .macroArgument, matcher := .scan (backslashed isArgumentName),
      parents := [.string, .interpolation] },
    { kind := .uniqueLabel, matcher := .scan (literal ['\\', '@']),
      parents := [.string, .interpolation] },
    { kind := .stringText, matcher := .scan (plain .string), subOnly := true,
      parents := [.string] },
    { kind := .interpolationText, matcher := .scan (plain .interpolation), subOnly := true,
      parents := [.interpolation] },
    { kind := .number, matcher := .scan number },
    { kind := .keyword, matcher := .scan keyword },
    { kind := .opcode, matcher := .scan opcode },
    { kind := .identifier, matcher := .scan identifier },
    { kind := .operator, matcher := .scan operator },
    { kind := .doubleColon, matcher := .scan (literal [':', ':']) },
    { kind := .colon, matcher := .scan (literal [':']) },
    { kind := .comma, matcher := .scan (literal [',']) },
    { kind := .openParen, matcher := .scan (literal ['(']) },
    { kind := .closeParen, matcher := .scan (literal [')']) },
    { kind := .openBracket, matcher := .scan (literal ['[']) },
    { kind := .closeBracket, matcher := .scan (literal [']']) } ]

/-- The rules for the top of a line, or for the inside of a class. -/
def rulesFor : Option TokenKind → List Rule
  | none => rules.filter (!·.subOnly)
  | some parent => rules.filter (·.parents.contains parent)

mutual

/-- The longest match at an offset; lengths and places of matches count bytes here. -/
def scan? (ctx : ScanContext) (text : List Char) (offset : Nat) (inside : Option TokenKind) :
    Option (Option Match) := do
  let found ← (rulesFor inside).mapM fun rule => found? ctx text offset rule
  return found.foldl longer none
termination_by 3 * (byteLength text - offset) + 1

/-- What a rule finds at an offset. -/
def found? (ctx : ScanContext) (text : List Char) (offset : Nat) (rule : Rule) :
    Option (Option Match) :=
  match _h : from? text offset with
  | none => none
  | some rest =>
    match rule.matcher, rest with
    | .scan scanner, rest => (scanner ctx rest).map (ofLength rule.kind)
    | .delimited _ _, [] => some none
    | .delimited opening closing, c :: _ =>
      if c == opening then
        enclosed? ctx text rule.kind closing offset (offset + opening.utf8Size) []
      else some none
termination_by 3 * (byteLength text - offset)
decreasing_by
  have := lt_of_from?_cons _h
  have := opening.utf8Size_pos
  omega

/-- Goes on to the closing character of a match that begins at `start`, with the matches inside
it so far. -/
def enclosed? (ctx : ScanContext) (text : List Char) (kind : TokenKind) (closing : Char)
    (start pos : Nat) (subs : List SubMatch) : Option (Option Match) :=
  match _h : from? text pos with
  | none => none
  | some [] => some none
  | some (c :: _) =>
    if c == closing then
      some (some { kind, length := pos + closing.utf8Size - start, subs })
    else
      match scan? ctx text pos (some kind) with
      | none => none
      | some none => enclosed? ctx text kind closing start (pos + c.utf8Size) subs
      | some (some m) =>
        if 0 < m.length then
          enclosed? ctx text kind closing start (pos + m.length)
            (subs ++ m.subs ++ [⟨m.kind, pos, m.length⟩])
        else none
termination_by 3 * (byteLength text - pos) + 2
decreasing_by
  · omega
  · have := lt_of_from?_cons _h
    have := c.utf8Size_pos
    omega
  · have := lt_of_from?_cons _h
    omega

end

/-! ## Matches in bytes -/

end Stored

/-- A match inside a line, in bytes. -/
def SubMatch.stored (whole : List Char) (m : SubMatch) : SubMatch :=
  { kind := m.kind
    start := byteLength (whole.take m.start)
    length := byteLength ((whole.drop m.start).take m.length) }

/-- A match at the head of `cs` and behind `front`, in bytes. -/
def Match.stored (front cs : List Char) (m : Match) : Match :=
  { kind := m.kind
    length := byteLength (cs.take m.length)
    subs := m.subs.map (SubMatch.stored (front ++ cs)) }

namespace Stored

theorem longer_stored {front cs : List Char} {best found : Option Match}
    (hbest : ∀ m ∈ best, m.length ≤ cs.length) (hfound : ∀ m ∈ found, m.length ≤ cs.length) :
    longer (best.map (Match.stored front cs)) (found.map (Match.stored front cs)) =
      (longer best found).map (Match.stored front cs) := by
  cases best with
  | none => cases found <;> rfl
  | some best =>
    cases found with
    | none => rfl
    | some found =>
      have hiff : (best.stored front cs).length < (found.stored front cs).length ↔
          best.length < found.length := by
        constructor
        · intro hlt
          by_contra hle
          rcases Nat.eq_or_lt_of_le (Nat.le_of_not_lt hle) with heq | hgt
          · exact absurd hlt (by simp [Match.stored, heq])
          · exact absurd hlt (Nat.lt_asymm (Text.byteLength_take_lt hgt (hbest best rfl)))
        · intro hlt
          exact Text.byteLength_take_lt hlt (hfound found rfl)
      simp only [longer, Option.map_some, hiff]
      split
      · rfl
      · rfl

theorem foldl_longer_stored (front : List Char) {cs : List Char} (found : List (Option Match))
    (best : Option Match) (hbest : ∀ m ∈ best, m.length ≤ cs.length)
    (hfound : ∀ m, some m ∈ found → m.length ≤ cs.length) :
    (found.map (Option.map (Match.stored front cs))).foldl longer
        (best.map (Match.stored front cs)) =
      (found.foldl longer best).map (Match.stored front cs) := by
  induction found generalizing best with
  | nil => rfl
  | cons m found ih =>
    have hm : ∀ k ∈ m, k.length ≤ cs.length := by
      rintro k hk
      exact hfound k (by rw [Option.mem_def.1 hk]; exact List.mem_cons_self)
    have hlonger : ∀ k ∈ longer best m, k.length ≤ cs.length := by
      intro k hk
      rcases longer_eq_or best m with heq | heq
      · exact hbest k (heq ▸ hk)
      · exact hm k (heq ▸ hk)
    rw [List.map_cons, List.foldl_cons, List.foldl_cons, longer_stored hbest hm]
    exact ih (longer best m) hlonger fun k hk => hfound k (List.mem_cons_of_mem _ hk)

/-- The rules find, in bytes, some matches. -/
abbrev Finds (ctx : ScanContext) (front cs : List Char) : List Rule → List (Option Match) → Prop :=
  List.Forall₂ fun rule m =>
    found? ctx (front ++ cs) (byteLength front) rule = some (m.map (Match.stored front cs))

theorem mapM_of_finds {ctx : ScanContext} {front cs : List Char} {rs : List Rule}
    {found : List (Option Match)} (h : Finds ctx front cs rs found) :
    (rs.mapM fun rule => found? ctx (front ++ cs) (byteLength front) rule) =
      some (found.map (Option.map (Match.stored front cs))) := by
  induction h with
  | nil => rfl
  | cons hrule _ ih => simp [List.mapM_cons, hrule, ih]

theorem scan?_of_finds {ctx : ScanContext} {front cs : List Char} {inside : Option TokenKind}
    {found : List (Option Match)} (h : Finds ctx front cs (rulesFor inside) found)
    (hle : ∀ m, some m ∈ found → m.length ≤ cs.length) :
    scan? ctx (front ++ cs) (byteLength front) inside =
      some ((found.foldl longer none).map (Match.stored front cs)) := by
  have hfold := foldl_longer_stored front found none (by simp) hle
  rw [scan?, mapM_of_finds h]
  exact congrArg some hfold

/-- A rule that reads the text in front of it. -/
theorem found?_scan {ctx : ScanContext} {front cs : List Char} {rule : Rule} {scanner : Scanner}
    {n : Nat} (hrule : rule.matcher = .scan scanner)
    (hscan : scanner ctx cs = some (byteLength (cs.take n))) (hn : n ≤ cs.length) :
    found? ctx (front ++ cs) (byteLength front) rule =
      some ((ofLength rule.kind n).map (Match.stored front cs)) := by
  have hzero : ofLength rule.kind (byteLength (cs.take n)) =
      (ofLength rule.kind n).map (Match.stored front cs) := by
    cases n with
    | zero => rfl
    | succ n =>
      have hpos := Text.byteLength_take_lt (Nat.succ_pos n) hn
      obtain ⟨k, hk⟩ := Nat.exists_eq_succ_of_ne_zero (Nat.ne_of_gt (Nat.zero_lt_of_lt hpos))
      simp [ofLength, hk, Match.stored]
  rw [found?]
  split
  · rename_i h
    exact absurd h (by simp [from?_append])
  · rename_i rest h
    rw [from?_append] at h
    obtain rfl := Option.some.inj h
    rw [hrule]
    simp only [hscan, Option.map_some, hzero]

end Stored

/-! ## Between delimiters -/

/-- The class of what stands between delimiters, with them. -/
def Delimiter.kind : Delimiter → TokenKind
  | .string => .string
  | .interpolation => .interpolation

/-- What the rules for the inside of a string or an interpolation find. -/
def innerCandidates (d : Delimiter) (pos : Nat) (cs : List Char) : List (Option Match) :=
  match d with
  | .string =>
    [ delimited .interpolation '\x7b' .interpolation pos cs,
      ofLength .escape (if Stored.isBackslashed isEscaped cs then 2 else 0),
      ofLength .macroArgument (macroArgumentLength cs),
      ofLength .uniqueLabel (uniqueLabelLength cs),
      ofLength .stringText (countWhile (fun c => !Delimiter.string.endsText c) cs) ]
  | .interpolation =>
    [ delimited .interpolation '\x7b' .interpolation pos cs,
      ofLength .macroArgument (macroArgumentLength cs),
      ofLength .uniqueLabel (uniqueLabelLength cs),
      ofLength .interpolationText (countWhile (fun c => !Delimiter.interpolation.endsText c) cs) ]

theorem plainText_eq (d : Delimiter) (cs : List Char) :
    plainText d cs = ofLength d.textKind (countWhile (fun c => !d.endsText c) cs) := by
  unfold plainText
  cases countWhile (fun c => !d.endsText c) cs <;> rfl

theorem uniqueLabelLength_cons_cons (c e : Char) (rest : List Char) :
    uniqueLabelLength (c :: e :: rest) = if c == '\\' && e == '@' then 2 else 0 := by
  unfold uniqueLabelLength
  split
  · rename_i heq
    obtain ⟨rfl, hrest⟩ := List.cons.inj heq
    obtain ⟨rfl, -⟩ := List.cons.inj hrest
    rfl
  · rename_i h
    refine (if_neg fun hboth => ?_).symm
    obtain ⟨hc, he⟩ := Bool.and_eq_true_iff.1 hboth
    exact h rest (by rw [beq_iff_eq.1 hc, beq_iff_eq.1 he])

/-- Without a backslash in front, only the rules for braces and for plain text are left. -/
theorem escapes_of_ne {c : Char} (hc : c ≠ '\\') (rest : List Char) :
    (∀ p, Stored.isBackslashed p (c :: rest) = false) ∧ macroArgumentLength (c :: rest) = 0 ∧
      uniqueLabelLength (c :: rest) = 0 := by
  have hslash : (c == '\\') = false := beq_eq_false_iff_ne.2 hc
  have hno : ∀ p, Stored.isBackslashed p (c :: rest) = false := fun p => by
    simp [Stored.isBackslashed, hslash]
  refine ⟨hno, by rw [Stored.macroArgumentLength_eq, hno]; rfl, ?_⟩
  cases rest with
  | nil =>
    unfold uniqueLabelLength
    split
    · rename_i heq
      exact absurd (List.cons.inj heq).2 (by simp)
    · rfl
  | cons e rest => simp [uniqueLabelLength_cons_cons, hslash]

theorem countWhile_eq_zero {p : Char → Bool} {c : Char} (h : p c = false) (rest : List Char) :
    countWhile p (c :: rest) = 0 := by
  simp [countWhile, h]

/-- Between delimiters, at most one rule can match, as the first characters tell. -/
theorem nested_eq_foldl (d : Delimiter) (pos : Nat) (cs : List Char) :
    nested d pos cs = (innerCandidates d pos cs).foldl longer none := by
  cases cs with
  | nil =>
    cases d with
    | string => rw [nested]; rfl
    | interpolation => rw [nested]; rfl
  | cons c rest =>
    rw [nested.eq_def]
    by_cases hbrace : c = '\x7b'
    · subst hbrace
      obtain ⟨hslash, hargument, hunique⟩ := escapes_of_ne (c := '\x7b') (by decide) rest
      have htext := fun d : Delimiter => countWhile_eq_zero (p := fun c => !d.endsText c)
        (c := '\x7b') (by cases d <;> rfl) rest
      have hdelimited : delimited .interpolation '\x7b' .interpolation pos ('\x7b' :: rest) =
          (contents .interpolation (pos + 1) rest).map fun p =>
            { kind := .interpolation, length := p.1 + 1, subs := p.2 } := rfl
      cases d <;> simp only [innerCandidates, hslash, hargument, hunique, htext, hdelimited] <;>
        cases contents .interpolation (pos + 1) rest <;> rfl
    · have hdelimited : delimited .interpolation '\x7b' .interpolation pos (c :: rest) = none := by
        rw [delimited, if_neg (by simpa using hbrace)]
      by_cases hslash : c = '\\'
      · subst hslash
        have htext := fun d : Delimiter => countWhile_eq_zero (p := fun c => !d.endsText c)
          (c := '\\') (by cases d <;> rfl) rest
        cases rest with
        | nil => cases d <;> simp only [innerCandidates, hdelimited, htext] <;> rfl
        | cons e rest =>
          have hunique := uniqueLabelLength_cons_cons '\\' e rest
          have hargument := Stored.macroArgumentLength_eq ('\\' :: e :: rest)
          have hback : ∀ p, Stored.isBackslashed p ('\\' :: e :: rest) = p e := fun p => rfl
          cases d with
          | string =>
            simp only [innerCandidates, hdelimited, htext, hunique, hargument, hback]
            show backslashed .string e = _
            unfold backslashed
            cases isEscaped e <;> cases isArgumentName e <;> cases e == '@' <;> rfl
          | interpolation =>
            simp only [innerCandidates, hdelimited, htext, hunique, hargument, hback]
            show backslashed .interpolation e = _
            unfold backslashed
            cases isArgumentName e <;> cases e == '@' <;> rfl
      · obtain ⟨hno, hargument, hunique⟩ := escapes_of_ne hslash rest
        have hb : (c == '\x7b') = false := beq_eq_false_iff_ne.2 hbrace
        have hs : (c == '\\') = false := beq_eq_false_iff_ne.2 hslash
        simp only [hb, hs, Bool.false_eq_true, if_false, plainText_eq]
        cases d with
        | string =>
          simp only [innerCandidates, hdelimited, hno, hargument, hunique]
          cases countWhile (fun c => !Delimiter.string.endsText c) (c :: rest) <;> rfl
        | interpolation =>
          simp only [innerCandidates, hdelimited, hargument, hunique]
          cases countWhile (fun c => !Delimiter.interpolation.endsText c) (c :: rest) <;> rfl

theorem length_le_of_innerCandidates {d : Delimiter} {pos : Nat} {cs : List Char} {m : Match}
    (h : some m ∈ innerCandidates d pos cs) : m.length ≤ cs.length := by
  have hrule : ∀ {kind : TokenKind} {n : Nat}, some m = ofLength kind n → n ≤ cs.length →
      m.length ≤ cs.length := by
    rintro kind n hm hn
    obtain ⟨-, rfl⟩ := ofLength_eq_some hm.symm
    exact hn
  have hescape : (if Stored.isBackslashed isEscaped cs then 2 else 0) ≤ cs.length := by
    split
    · rename_i hb
      obtain ⟨c, tail, rfl, -⟩ := Stored.isBackslashed_iff.1 hb
      simp
    · exact Nat.zero_le _
  cases d with
  | string =>
    simp only [innerCandidates, List.mem_cons, List.not_mem_nil, or_false] at h
    rcases h with h | h | h | h | h
    · exact (fits_delimited h.symm (by simp) (by decide)).whole.le
    · exact hrule h hescape
    · exact hrule h (macroArgumentLength_le cs)
    · exact hrule h (uniqueLabelLength_le cs)
    · exact hrule h (countWhile_le _ cs)
  | interpolation =>
    simp only [innerCandidates, List.mem_cons, List.not_mem_nil, or_false] at h
    rcases h with h | h | h | h
    · exact (fits_delimited h.symm (by simp) (by decide)).whole.le
    · exact hrule h (macroArgumentLength_le cs)
    · exact hrule h (uniqueLabelLength_le cs)
    · exact hrule h (countWhile_le _ cs)

namespace Stored

/-- What stands between delimiters is found where it is in characters. -/
def Encloses (ctx : ScanContext) (d : Delimiter) (cs : List Char) : Prop :=
  ∀ (front : List Char) (start : Nat) (subs : List SubMatch),
    enclosed? ctx (front ++ cs) d.kind d.closing start (byteLength front) subs =
      some ((contents d front.length cs).map fun (n, more) =>
        { kind := d.kind
          length := byteLength front + byteLength (cs.take n) - start
          subs := subs ++ more.map (SubMatch.stored (front ++ cs)) })

/-- A rule that goes from one character to another. -/
theorem found?_delimited {ctx : ScanContext} {front cs : List Char} {rule : Rule} {d : Delimiter}
    {opening : Char} (hkind : rule.kind = d.kind)
    (hrule : rule.matcher = .delimited opening d.closing)
    (h : ∀ rest, cs = opening :: rest → Encloses ctx d rest) :
    found? ctx (front ++ cs) (byteLength front) rule =
      some ((delimited d.kind opening d front.length cs).map (Match.stored front cs)) := by
  rw [found?]
  split
  · rename_i hfrom
    exact absurd hfrom (by simp [from?_append])
  · rename_i rest hfrom
    rw [from?_append] at hfrom
    obtain rfl := Option.some.inj hfrom
    cases cs with
    | nil =>
      rw [hrule]
      rfl
    | cons c rest =>
      rw [hrule]
      dsimp only
      rw [delimited]
      split
      · rename_i hc
        obtain rfl := beq_iff_eq.1 hc
        have henc := h rest rfl (front ++ [c]) (byteLength front) []
        have hlength : byteLength (front ++ [c]) = byteLength front + c.utf8Size := by
          rw [Text.byteLength_append]
          rfl
        rw [List.append_assoc, List.singleton_append, hlength] at henc
        rw [hkind, henc, List.length_append, List.length_singleton]
        cases contents d (front.length + 1) rest with
        | none => rfl
        | some p =>
          simp only [Option.map_some, Match.stored, List.take_succ_cons, byteLength,
            List.nil_append]
          congr 3
          omega
      · rfl

/-- The rules for the inside of a string or an interpolation find what they find in
characters, given that shorter stretches of text are read alike. -/
theorem finds_inner {ctx : ScanContext} {d : Delimiter} {front cs : List Char}
    (h : ∀ rest, cs = '\x7b' :: rest → Encloses ctx .interpolation rest) :
    Finds ctx front cs (rulesFor (some d.kind)) (innerCandidates d front.length cs) := by
  have hbraces : ∀ rule : Rule, rule.kind = .interpolation →
      rule.matcher = .delimited '\x7b' '\x7d' →
        found? ctx (front ++ cs) (byteLength front) rule =
          some ((delimited .interpolation '\x7b' .interpolation front.length cs).map
            (Match.stored front cs)) :=
    fun _ hkind hmatcher => found?_delimited (d := .interpolation) hkind hmatcher h
  have hescape : backslashed isEscaped ctx cs =
      some (byteLength (cs.take (if isBackslashed isEscaped cs then 2 else 0))) := by
    rw [backslashed_eq ascii_isEscaped]
    cases hb : isBackslashed isEscaped cs with
    | true => simp [byteLength_take_backslashed ascii_isEscaped hb]
    | false => rfl
  have htwo : (if isBackslashed isEscaped cs then 2 else 0) ≤ cs.length := by
    split
    · rename_i hb
      obtain ⟨c, tail, rfl, -⟩ := isBackslashed_iff.1 hb
      simp
    · exact Nat.zero_le _
  -- The rules for the inside, in their order: interpolations, escapes and plain characters.
  cases d with
  | string =>
    refine .cons (hbraces _ rfl rfl) (.cons (found?_scan rfl hescape htwo) ?_)
    refine .cons (found?_scan rfl (macroArgument_eq ctx cs) (macroArgumentLength_le cs)) ?_
    refine .cons (found?_scan rfl (uniqueLabel_eq ctx cs) (uniqueLabelLength_le cs)) ?_
    exact .cons (found?_scan rfl (plain_eq .string ctx cs) (countWhile_le _ cs)) .nil
  | interpolation =>
    refine .cons (hbraces _ rfl rfl) ?_
    refine .cons (found?_scan rfl (macroArgument_eq ctx cs) (macroArgumentLength_le cs)) ?_
    refine .cons (found?_scan rfl (uniqueLabel_eq ctx cs) (uniqueLabelLength_le cs)) ?_
    exact .cons (found?_scan rfl (plain_eq .interpolation ctx cs) (countWhile_le _ cs)) .nil

theorem scan?_inner {ctx : ScanContext} {d : Delimiter} {front cs : List Char}
    (h : ∀ rest, cs = '\x7b' :: rest → Encloses ctx .interpolation rest) :
    scan? ctx (front ++ cs) (byteLength front) (some d.kind) =
      some ((nested d front.length cs).map (Match.stored front cs)) := by
  rw [nested_eq_foldl]
  exact scan?_of_finds (finds_inner h) fun m hm => length_le_of_innerCandidates hm

/-- Going on behind a stretch of the text. -/
theorem Encloses.behind {ctx : ScanContext} {d : Delimiter} {cs : List Char} {k : Nat}
    (h : Encloses ctx d (cs.drop k)) (hk : k ≤ cs.length) (front : List Char) (start : Nat)
    (subs : List SubMatch) :
    enclosed? ctx (front ++ cs) d.kind d.closing start (byteLength front + byteLength (cs.take k))
        subs =
      some ((contents d (front.length + k) (cs.drop k)).map fun (n, more) =>
        { kind := d.kind
          length := byteLength front + byteLength (cs.take (k + n)) - start
          subs := subs ++ more.map (SubMatch.stored (front ++ cs)) }) := by
  have hbehind := h (front ++ cs.take k) start subs
  have hlength : (front ++ cs.take k).length = front.length + k := by
    rw [List.length_append, List.length_take, Nat.min_eq_left hk]
  rw [List.append_assoc, List.take_append_drop, Text.byteLength_append, hlength] at hbehind
  rw [hbehind]
  cases contents d (front.length + k) (cs.drop k) with
  | none => rfl
  | some p =>
    simp only [Option.map_some]
    rw [List.take_add, Text.byteLength_append, Nat.add_assoc]

theorem enclosed?_nil {ctx : ScanContext} {text : List Char} {pos : Nat}
    (h : from? text pos = some []) (kind : TokenKind) (closing : Char) (start : Nat)
    (subs : List SubMatch) : enclosed? ctx text kind closing start pos subs = some none := by
  rw [enclosed?]
  split
  · rename_i hfrom
    exact absurd (h.symm.trans hfrom) (by simp)
  · rfl
  · rename_i hfrom
    exact absurd (h.symm.trans hfrom) (by simp)

theorem enclosed?_cons {ctx : ScanContext} {text rest : List Char} {c : Char} {pos : Nat}
    (h : from? text pos = some (c :: rest)) (kind : TokenKind) (closing : Char) (start : Nat)
    (subs : List SubMatch) :
    enclosed? ctx text kind closing start pos subs =
      if c == closing then some (some { kind, length := pos + closing.utf8Size - start, subs })
      else
        match scan? ctx text pos (some kind) with
        | none => none
        | some none => enclosed? ctx text kind closing start (pos + c.utf8Size) subs
        | some (some m) =>
          if 0 < m.length then
            enclosed? ctx text kind closing start (pos + m.length)
              (subs ++ m.subs ++ [⟨m.kind, pos, m.length⟩])
          else none := by
  rw [enclosed?]
  split
  · rename_i hfrom
    exact absurd (h.symm.trans hfrom) (by simp)
  · rename_i hfrom
    exact absurd (h.symm.trans hfrom) (by simp)
  · rename_i hfrom
    obtain ⟨rfl, rfl⟩ := List.cons.inj (Option.some.inj (h.symm.trans hfrom))
    rfl

/-- Where nothing matches, a single character is passed over. An opening brace that is never closed
is no exception: what follows it, read as contents, is not closed either. -/
theorem contents_of_nested_eq_none {d : Delimiter} {pos : Nat} {c : Char} {rest : List Char}
    (h : nested d pos (c :: rest) = none) (hc : ¬ (c == d.closing) = true) :
    contents d pos (c :: rest) =
      (contents d (pos + 1) rest).map fun (n, subs) => (n + 1, subs) := by
  rw [contents, if_neg hc, h]
  dsimp only
  split
  · rename_i hbrace
    obtain ⟨hd, hopening⟩ := Bool.and_eq_true_iff.1 hbrace
    obtain rfl := beq_iff_eq.1 hd
    obtain rfl := beq_iff_eq.1 hopening
    rw [nested.eq_def] at h
    cases hcontents : contents .interpolation (pos + 1) rest with
    | none => rfl
    | some p => exact absurd h (by simp [hcontents])
  · cases contents d (pos + 1) rest <;> rfl

theorem encloses_contents (ctx : ScanContext) (d : Delimiter) (cs : List Char) :
    Encloses ctx d cs := by
  intro front start subs
  match cs with
  | [] =>
    rw [enclosed?_nil (from?_append front []), contents]
    rfl
  | c :: rest =>
    have hscan : scan? ctx (front ++ c :: rest) (byteLength front) (some d.kind) = _ :=
      scan?_inner fun tail htail => encloses_contents ctx .interpolation tail
    rw [enclosed?_cons (from?_append front (c :: rest)), hscan]
    split
    · rename_i hc
      rw [contents, if_pos hc]
      obtain rfl := beq_iff_eq.1 hc
      simp [byteLength]
    · rename_i hc
      -- A match is passed over as a whole; where there is none, a single character is.
      cases hm : nested d front.length (c :: rest) with
      | some m =>
        have hcut := (fits_nested hm).whole
        have hbehind := (encloses_contents ctx d ((c :: rest).drop m.length)).behind hcut.le
          front start
        have hdrop : rest.drop (m.length - 1) = (c :: rest).drop m.length := by
          rw [← Nat.succ_pred_eq_of_pos hcut.pos]
          rfl
        have hpos : 0 < (m.stored front (c :: rest)).length :=
          Text.byteLength_pos hcut.take_ne_nil
        simp only [Option.map_some]
        rw [if_pos hpos, contents, if_neg hc, hm]
        dsimp only
        rw [hdrop]
        show enclosed? ctx _ d.kind d.closing start
          (byteLength front + byteLength ((c :: rest).take m.length)) _ = _
        rw [hbehind]
        cases contents d (front.length + m.length) ((c :: rest).drop m.length) with
        | none => rfl
        | some p => simp [Match.stored, SubMatch.stored]
      | none =>
        have hbehind := (encloses_contents ctx d ((c :: rest).drop 1)).behind (Nat.succ_pos _)
          front start subs
        have hone : byteLength ((c :: rest).take 1) = c.utf8Size := rfl
        rw [hone] at hbehind
        simp only [Option.map_none]
        rw [hbehind, List.drop_one, List.tail_cons, contents_of_nested_eq_none hm hc]
        cases contents d (front.length + 1) rest with
        | none => rfl
        | some p => simp [Nat.add_comm]
termination_by cs.length
decreasing_by
  · obtain ⟨-, rfl⟩ := List.cons.inj htail
    exact Nat.lt_succ_self _
  · exact Nat.lt_succ_self _
  · have := hcut.pos
    simp only [List.length_drop, List.length_cons]
    omega

/-! ## The top of a line -/

/-- The rules for the top of a line find what they find in characters. -/
theorem finds_top (ctx : ScanContext) (front cs : List Char) :
    Finds ctx front cs (rulesFor none) (candidates ctx front.length cs) := by
  have hword := countWhile_le Text.isWordChar cs
  refine .cons (found?_scan rfl (space_eq ctx cs) (spaceLength_le cs)) ?_
  refine .cons (found?_scan rfl (comment_eq ctx cs) (commentLength_le cs)) ?_
  refine .cons (found?_scan rfl (directive_eq ctx cs) (directiveLength_le cs)) ?_
  refine .cons (found?_delimited (d := .string) rfl rfl fun rest _ =>
    encloses_contents ctx _ rest) ?_
  refine .cons (found?_delimited (d := .interpolation) rfl rfl fun rest _ =>
    encloses_contents ctx _ rest) ?_
  refine .cons (found?_scan rfl (macroArgument_eq ctx cs) (macroArgumentLength_le cs)) ?_
  refine .cons (found?_scan rfl (uniqueLabel_eq ctx cs) (uniqueLabelLength_le cs)) ?_
  refine .cons (found?_scan rfl (number_eq ctx cs) (numberLength_le ctx cs)) ?_
  refine .cons (found?_scan rfl (keyword_eq ctx cs)
    (Nat.le_trans (keywordLength_le ctx cs) hword)) ?_
  refine .cons (found?_scan rfl (opcode_eq ctx cs) (Nat.le_trans (opcodeLength_le cs) hword)) ?_
  refine .cons (found?_scan rfl (identifier_eq ctx cs) (identifierLength_le cs)) ?_
  refine .cons (found?_scan rfl (operator_eq ctx cs) (operatorLength_le cs)) ?_
  have hliteral : ∀ spelling kind, found? ctx (front ++ cs) (byteLength front)
      { kind, matcher := .scan (literal spelling) } =
        some ((ofLength kind (literalLength spelling cs)).map (Match.stored front cs)) :=
    fun spelling kind =>
      let rule : Rule := { kind, matcher := .scan (literal spelling) }
      have hrule : rule.matcher = .scan (literal spelling) := rfl
      found?_scan hrule (literal_eq spelling ctx cs) (literalLength_le spelling cs)
  exact .cons (hliteral _ _) (.cons (hliteral _ _) (.cons (hliteral _ _) (.cons (hliteral _ _)
    (.cons (hliteral _ _) (.cons (hliteral _ _) (.cons (hliteral _ _) .nil))))))

theorem scan?_top (ctx : ScanContext) (front cs : List Char) :
    scan? ctx (front ++ cs) (byteLength front) none =
      some ((scanTop ctx front.length cs).map (Match.stored front cs)) :=
  scan?_of_finds (finds_top ctx front cs) fun _ hm => (fits_of_mem_candidates hm).whole.le

end Stored

end Sm83Asm
