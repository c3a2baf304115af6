import Sm83Asm.Proofs.Token.Stored
import Sm83Asm.Proofs.Token.Strings

set_option autoImplicit false

/-!
# Passes over a string literal

A pass walks over the characters of a text together with their byte offsets, takes slices of the
text by these offsets, and steps over an interpolation by comparing offsets with that of its closing
brace. Here is the pass in that form. A pass that replaces nothing gives back its text, so a text
that was left alone once is left alone ever after, and passes that end before the limit end there.

Main statements: `pass?_eq`, no slice of a pass fails; `text_of_unchanged`; and
`expandString_settles` for all passes over a literal.
-/

namespace Sm83Asm

open Text (byteLength)

namespace Stored

/-! ## A pass over stored text -/

/-- The characters of a text with the offsets at which they begin. -/
def charOffsets (start : Nat) : List Char → List (Nat × Char)
  | [] => []
  | c :: cs => (start, c) :: charOffsets (start + c.utf8Size) cs

/-- The offset of the first brace. -/
def braceOffset? (text : List Char) : Option Nat :=
  ((charOffsets 0 text).find? fun p => isBrace p.2).map Prod.fst

/-- The text between the brace at an offset and the next brace, with its length, provided that the
next brace closes it. -/
def interpolation? (text : List Char) (start : Nat) : Option (Option (List Char × Nat)) := do
  let rest ← from? text (start + 1)
  match braceOffset? rest with
  | none => return none
  | some stop =>
    let close ← from? rest stop
    if close.head? == some '\x7d' then
      let inner ← upTo? rest stop
      return some (inner, stop)
    else return none

/-- The text of an interpolation that begins at an offset. It is only looked at again when it stays
where it is. -/
def written? (text : List Char) (start length : Nat) :
    Except SubstitutionError String → Option (List Char)
  | .ok _ => some []
  | .error _ => between? text start (start + length + 2)

/-- The rest of a pass, over the characters that are left. -/
def passFrom? (st : State) (text : List Char) (chars : List (Nat × Char)) : Option Pass :=
  match chars with
  | [] => some .empty
  | (start, c) :: chars =>
    if c == '\\' then
      match chars with
      | [] => some ⟨[c], false, []⟩
      | (_, e) :: chars =>
        (passFrom? st text chars).map fun pass =>
          if isMacroEscape e then pass.replace [c, e] (st.escapeText e) else pass.keep [c, e]
    else if c == '\x7b' then
      match interpolation? text start with
      | none => none
      | some none => (passFrom? st text chars).map (Pass.keep [c])
      | some (some (inner, length)) =>
        match written? text start length (st.interpolate inner) with
        | none => none
        | some old =>
          (passFrom? st text (chars.dropWhile fun p => p.1 ≤ start + length + 1)).map fun pass =>
            pass.replace old (st.interpolate inner)
    else (passFrom? st text chars).map (Pass.keep [c])
termination_by chars.length
decreasing_by
  · simp only [List.length_cons]
    omega
  · exact Nat.lt_succ_self _
  · exact Nat.lt_succ_of_le (List.dropWhile_sublist _).length_le
  · exact Nat.lt_succ_self _

/-- One pass over a text. -/
def pass? (st : State) (text : List Char) : Option Pass :=
  passFrom? st text (charOffsets 0 text)

/-! ## The slices of a pass -/

theorem find?_charOffsets {inner : List Char} (h : ∀ c ∈ inner, isBrace c = false) (start : Nat)
    (tail : List Char) :
    (charOffsets start (inner ++ tail)).find? (fun p => isBrace p.2) =
      (charOffsets (start + byteLength inner) tail).find? fun p => isBrace p.2 := by
  induction inner generalizing start with
  | nil => rfl
  | cons c inner ih =>
    obtain ⟨hc, hinner⟩ := List.forall_mem_cons.1 h
    rw [List.cons_append, charOffsets, List.find?_cons_of_neg (by simp [hc]), ih hinner, byteLength,
      Nat.add_assoc]

theorem braceOffset?_of_brace {inner : List Char} (h : ∀ c ∈ inner, isBrace c = false) {c : Char}
    (hc : isBrace c = true) (tail : List Char) :
    braceOffset? (inner ++ c :: tail) = some (byteLength inner) := by
  rw [braceOffset?, find?_charOffsets h, charOffsets, List.find?_cons_of_pos (by simp [hc]),
    Option.map_some, Nat.zero_add]

theorem braceOffset?_eq_none {text : List Char} (h : ∀ c ∈ text, isBrace c = false) :
    braceOffset? text = none := by
  have hfind := find?_charOffsets h 0 []
  rw [List.append_nil] at hfind
  rw [braceOffset?, hfind]
  rfl

/-- Nothing is stepped over where every character begins behind the place. -/
theorem dropWhile_charOffsets_of_lt {start stop : Nat} (h : stop < start) (tail : List Char) :
    (charOffsets start tail).dropWhile (fun p => p.1 ≤ stop) = charOffsets start tail := by
  cases tail with
  | nil => rfl
  | cons c tail =>
    rw [charOffsets, List.dropWhile_cons_of_neg]
    simpa using h

/-- Stepping over some characters and the one behind them. -/
theorem dropWhile_charOffsets (start : Nat) (inner : List Char) (c : Char) (tail : List Char) :
    (charOffsets start (inner ++ c :: tail)).dropWhile (fun p => p.1 ≤ start + byteLength inner) =
      charOffsets (start + byteLength inner + c.utf8Size) tail := by
  have hc := c.utf8Size_pos
  induction inner generalizing start with
  | nil =>
    rw [List.nil_append, charOffsets, List.dropWhile_cons_of_pos (by simp)]
    exact dropWhile_charOffsets_of_lt (by simpa [byteLength] using hc) tail
  | cons d inner ih =>
    rw [List.cons_append, charOffsets, List.dropWhile_cons_of_pos (by simp), byteLength,
      ← Nat.add_assoc]
    exact ih (start + d.utf8Size)

/-- A text has no brace, or it is split by its first brace. -/
theorem brace_cases (text : List Char) :
    (∀ c ∈ text, isBrace c = false) ∨ ∃ inner c tail, text = inner ++ c :: tail ∧
      (∀ d ∈ inner, isBrace d = false) ∧ isBrace c = true := by
  induction text with
  | nil => exact .inl (by simp)
  | cons c text ih =>
    cases hc : isBrace c with
    | true => exact .inr ⟨[], c, text, rfl, by simp, hc⟩
    | false =>
      rcases ih with h | ⟨inner, d, tail, rfl, hinner, hd⟩
      · exact .inl (List.forall_mem_cons.2 ⟨hc, h⟩)
      · exact .inr ⟨c :: inner, d, tail, rfl, List.forall_mem_cons.2 ⟨hc, hinner⟩, hd⟩

theorem eq_of_isBrace {c : Char} (h : isBrace c = true) : c = '\x7b' ∨ c = '\x7d' := by
  simpa [isBrace] using h

theorem dropWhile_of_brace {inner : List Char} (h : ∀ c ∈ inner, isBrace c = false) {c : Char}
    (hc : isBrace c = true) (tail : List Char) :
    (inner ++ c :: tail).dropWhile (fun c => !isBrace c) = c :: tail := by
  rw [List.dropWhile_append_of_pos fun d hd => by simp [h d hd],
    List.dropWhile_cons_of_neg (by simp [hc])]

theorem takeWhile_of_brace {inner : List Char} (h : ∀ c ∈ inner, isBrace c = false) {c : Char}
    (hc : isBrace c = true) (tail : List Char) :
    (inner ++ c :: tail).takeWhile (fun c => !isBrace c) = inner := by
  rw [List.takeWhile_append_of_pos fun d hd => by simp [h d hd],
    List.takeWhile_cons_of_neg (by simp [hc]), List.append_nil]

/-- The text behind an opening brace begins behind one more byte. -/
theorem from?_brace (front rest : List Char) :
    from? (front ++ '\x7b' :: rest) (byteLength front + 1) = some rest := by
  have h := from?_append (front ++ ['\x7b']) rest
  rwa [List.append_assoc, Text.byteLength_append] at h

/-- The next brace closes an interpolation. -/
theorem interpolation?_closed (front tail : List Char) {inner : List Char}
    (h : ∀ c ∈ inner, isBrace c = false) :
    interpolation? (front ++ '\x7b' :: (inner ++ '\x7d' :: tail)) (byteLength front) =
      some (some (inner, byteLength inner)) := by
  have hupTo := upTo?_take (inner ++ '\x7d' :: tail) inner.length
  rw [List.take_left] at hupTo
  unfold interpolation?
  simp only [from?_brace, braceOffset?_of_brace h (c := '\x7d') rfl, from?_append, hupTo,
    Option.bind_eq_bind, Option.bind_some, List.head?_cons, beq_self_eq_true, if_true]
  rfl

/-- The next brace opens another interpolation. -/
theorem interpolation?_reopened (front tail : List Char) {inner : List Char}
    (h : ∀ c ∈ inner, isBrace c = false) :
    interpolation? (front ++ '\x7b' :: (inner ++ '\x7b' :: tail)) (byteLength front) =
      some none := by
  unfold interpolation?
  simp only [from?_brace, braceOffset?_of_brace h (c := '\x7b') rfl, from?_append,
    Option.bind_eq_bind, Option.bind_some, List.head?_cons]
  rfl

/-- There is no further brace. -/
theorem interpolation?_unclosed (front : List Char) {rest : List Char}
    (h : ∀ c ∈ rest, isBrace c = false) :
    interpolation? (front ++ '\x7b' :: rest) (byteLength front) = some none := by
  unfold interpolation?
  simp only [from?_brace, braceOffset?_eq_none h, Option.bind_eq_bind, Option.bind_some]
  rfl

end Stored

namespace State

variable (st : State)

theorem substitutePass_closed (tail : List Char) {inner : List Char}
    (h : ∀ c ∈ inner, isBrace c = false) :
    st.substitutePass ('\x7b' :: (inner ++ '\x7d' :: tail)) =
      (st.substitutePass tail).replace ('\x7b' :: inner ++ ['\x7d']) (st.interpolate inner) := by
  have hdrop : (inner ++ '\x7d' :: tail).drop (inner.length + 1) = tail := by
    rw [← List.drop_drop, List.drop_left, List.drop_one, List.tail_cons]
  rw [st.substitutePass_cons (by decide), if_pos (beq_self_eq_true _),
    Stored.dropWhile_of_brace h rfl]
  dsimp only
  rw [if_pos (beq_self_eq_true _), Stored.takeWhile_of_brace h rfl, hdrop]

theorem substitutePass_reopened (tail : List Char) {inner : List Char}
    (h : ∀ c ∈ inner, isBrace c = false) :
    st.substitutePass ('\x7b' :: (inner ++ '\x7b' :: tail)) =
      (st.substitutePass (inner ++ '\x7b' :: tail)).keep ['\x7b'] := by
  rw [st.substitutePass_cons (by decide), if_pos (beq_self_eq_true _),
    Stored.dropWhile_of_brace h rfl]
  rfl

theorem substitutePass_unclosed {rest : List Char} (h : ∀ c ∈ rest, isBrace c = false) :
    st.substitutePass ('\x7b' :: rest) = (st.substitutePass rest).keep ['\x7b'] := by
  have hdrop : rest.dropWhile (fun c => !isBrace c) = [] :=
    List.dropWhile_eq_nil_iff.2 fun c hc => by simp [h c hc]
  rw [st.substitutePass_cons (by decide), if_pos (beq_self_eq_true _), hdrop]

end State

namespace Stored

variable (st : State)

theorem byteLength_braced (inner : List Char) :
    byteLength ('\x7b' :: inner ++ ['\x7d']) = byteLength inner + 2 := by
  rw [Text.byteLength_append, byteLength]
  show 1 + byteLength inner + (1 + 0) = _
  omega

/-- Stepping over an interpolation from behind its opening brace. -/
theorem dropWhile_braced (start : Nat) (inner tail : List Char) :
    (charOffsets (start + '\x7b'.utf8Size) (inner ++ '\x7d' :: tail)).dropWhile
        (fun p => p.1 ≤ start + byteLength inner + 1) =
      charOffsets (start + byteLength ('\x7b' :: inner ++ ['\x7d'])) tail := by
  have hskip := dropWhile_charOffsets (start + '\x7b'.utf8Size) inner '\x7d' tail
  have hlength : start + '\x7b'.utf8Size + byteLength inner = start + byteLength inner + 1 :=
    Nat.add_right_comm start 1 (byteLength inner)
  rw [hlength] at hskip
  rw [byteLength_braced]
  exact hskip

/-- A failed interpolation stays as it is written. -/
theorem replace_written (front inner tail : List Char) (pass : Pass)
    (new : Except SubstitutionError String) :
    ∃ old, written? (front ++ '\x7b' :: (inner ++ '\x7d' :: tail)) (byteLength front)
        (byteLength inner) new = some old ∧
      pass.replace old new = pass.replace ('\x7b' :: inner ++ ['\x7d']) new := by
  cases new with
  | ok text => exact ⟨[], rfl, rfl⟩
  | error error =>
    refine ⟨'\x7b' :: inner ++ ['\x7d'], ?_, rfl⟩
    have h := between?_take (front ++ '\x7b' :: (inner ++ '\x7d' :: tail)) front.length
      ('\x7b' :: inner ++ ['\x7d']).length
    have hsplit : '\x7b' :: (inner ++ '\x7d' :: tail) = ('\x7b' :: inner ++ ['\x7d']) ++ tail := by
      simp
    rw [List.take_left, List.drop_left, hsplit, List.take_left, byteLength_braced, ← hsplit] at h
    exact h

/-- A pass over stored text goes from character to character as one over characters does. -/
theorem passFrom?_eq (front cs : List Char) :
    passFrom? st (front ++ cs) (charOffsets (byteLength front) cs) =
      some (st.substitutePass cs) := by
  induction hn : cs.length using Nat.strongRecOn generalizing front cs with
  | ind n ih =>
    have hnext : ∀ taken rest, cs = taken ++ rest → taken ≠ [] →
        passFrom? st (front ++ cs) (charOffsets (byteLength front + byteLength taken) rest) =
          some (st.substitutePass rest) := by
      intro taken rest hcs hne
      have hlt : rest.length < n := by
        rw [← hn, hcs, List.length_append]
        exact Nat.lt_add_of_pos_left (List.length_pos_iff.2 hne)
      have h := ih rest.length hlt (front ++ taken) rest rfl
      rwa [List.append_assoc, ← hcs, Text.byteLength_append] at h
    match cs with
    | [] =>
      rw [charOffsets, passFrom?, st.substitutePass_nil]
      rfl
    | c :: rest =>
      have hkeep := hnext [c] rest rfl (by simp)
      rw [byteLength, byteLength, Nat.add_zero] at hkeep
      rw [charOffsets, passFrom?.eq_def]
      dsimp only
      by_cases hslash : c = '\\'
      · subst hslash
        rw [if_pos (beq_self_eq_true _)]
        cases rest with
        | nil =>
          rw [charOffsets, State.substitutePass]
        | cons e rest =>
          have hescape := hnext ['\\', e] rest rfl (by simp)
          simp only [byteLength, Nat.add_zero, ← Nat.add_assoc] at hescape
          rw [charOffsets, st.substitutePass_escape]
          dsimp only
          rw [hescape, Option.map_some]
      · rw [if_neg (by simpa using hslash)]
        by_cases hbrace : c = '\x7b'
        · subst hbrace
          rw [if_pos (beq_self_eq_true _)]
          rcases brace_cases rest with hnone | ⟨inner, d, tail, rfl, hinner, hd⟩
          · rw [interpolation?_unclosed front hnone, st.substitutePass_unclosed hnone, hkeep]
            rfl
          · rcases eq_of_isBrace hd with rfl | rfl
            · rw [interpolation?_reopened front tail hinner,
                st.substitutePass_reopened tail hinner, hkeep]
              rfl
            · have hbehind := hnext ('\x7b' :: inner ++ ['\x7d']) tail (by simp) (by simp)
              obtain ⟨old, hold, hreplace⟩ := replace_written front inner tail
                (st.substitutePass tail) (st.interpolate inner)
              rw [interpolation?_closed front tail hinner, st.substitutePass_closed tail hinner,
                ← hreplace]
              dsimp only
              rw [hold]
              dsimp only
              rw [dropWhile_braced, hbehind, Option.map_some]
        · rw [if_neg (by simpa using hbrace), hkeep, st.substitutePass_plain hslash hbrace]
          rfl

theorem pass?_eq (cs : List Char) : pass? st cs = some (st.substitutePass cs) :=
  passFrom?_eq st [] cs

end Stored

/-! ## Passes one after the other -/

theorem Pass.changed_replace {p : Pass} {old : List Char} {new : Except SubstitutionError String}
    (h : (p.replace old new).changed = false) :
    p.changed = false ∧ (p.replace old new).text = old ++ p.text := by
  cases new with
  | ok text => exact absurd h (by simp [Pass.replace])
  | error error => exact ⟨h, rfl⟩

namespace State

variable {st : State}

/-- A pass that replaces nothing gives back its text. -/
theorem text_of_unchanged {cs : List Char} (h : (st.substitutePass cs).changed = false) :
    (st.substitutePass cs).text = cs := by
  fun_induction substitutePass st cs with
  | case1 => rfl
  | case2 => rfl
  | case3 c rest hc ih =>
    obtain ⟨hrest, htext⟩ := Pass.changed_replace h
    rw [htext, ih hrest]
    rfl
  | case4 c rest hc ih => exact congrArg (['\\', c] ++ ·) (ih h)
  | case5 c rest hslash hescape hopen close tail hdrop hclose inner ih =>
    obtain ⟨htail, htext⟩ := Pass.changed_replace h
    obtain rfl := beq_iff_eq.1 hopen
    obtain rfl := beq_iff_eq.1 hclose
    have hrest : rest = inner ++ '\x7d' :: tail := by
      rw [← hdrop, List.takeWhile_append_dropWhile]
    have hbehind : rest.drop (inner.length + 1) = tail := by
      rw [hrest, ← List.drop_drop, List.drop_left, List.drop_one, List.tail_cons]
    rw [htext, ih htail, hbehind, hrest]
    simp
  | case6 c rest hslash hescape hopen close tail hdrop hclose ih => exact congrArg (c :: ·) (ih h)
  | case7 c rest hslash hescape hopen hdrop ih => exact congrArg (c :: ·) (ih h)
  | case8 c rest hslash hescape hopen ih => exact congrArg (c :: ·) (ih h)

/-- The passes that are made over a text. Each goes over what the one before has left, and all but
the last replace something. -/
inductive Passes (st : State) : List Char → List Pass → Prop
  | last (cs : List Char) : Passes st cs [st.substitutePass cs]
  | step {cs : List Char} {passes : List Pass} (hchanged : (st.substitutePass cs).changed = true)
      (hrest : Passes st (st.substitutePass cs).text passes) :
      Passes st cs (st.substitutePass cs :: passes)

/-- What was said in some passes. -/
def causesOf (passes : List Pass) : List EvaluationCause :=
  (passes.flatMap Pass.errors).map .substitution

theorem Passes.exists_eq {cs : List Char} {passes : List Pass} (h : st.Passes cs passes) :
    ∀ p ∈ passes, ∃ cs', p = st.substitutePass cs' := by
  induction h with
  | last cs => exact List.forall_mem_singleton.2 ⟨cs, rfl⟩
  | step _ _ ih => exact List.forall_mem_cons.2 ⟨⟨_, rfl⟩, ih⟩

/-- A pass that replaced nothing would give the same again. -/
theorem Passes.settled {cs : List Char} {passes : List Pass} (h : st.Passes cs passes) {p : Pass}
    (hp : p ∈ passes) (hsame : p.changed = false) : st.substitutePass p.text = p := by
  obtain ⟨cs', rfl⟩ := h.exists_eq p hp
  rw [text_of_unchanged hsame]

/-- The passes that are made with a number of further ones allowed. Only when none is left may the
last one have replaced something, and then this is said. -/
theorem exists_passes (left : Nat) : ∀ (done : Nat) (cs : List Char), ∃ front last,
    st.Passes cs (front ++ [last]) ∧
      (last.changed = false ∧ front.length ≤ left ∧
          st.settle left done cs = (last.text, causesOf (front ++ [last])) ∨
        last.changed = true ∧ front.length = left ∧
          st.settle left done cs = (last.text,
            causesOf (front ++ [last]) ++ [.unsettledString (done + (front.length + 1))])) := by
  induction left with
  | zero =>
    intro done cs
    refine ⟨[], st.substitutePass cs, .last cs, ?_⟩
    rw [settle]
    cases hchanged : (st.substitutePass cs).changed with
    | false => exact .inl ⟨rfl, Nat.le_refl 0, by simp [causesOf]⟩
    | true => exact .inr ⟨rfl, rfl, by simp [causesOf]⟩
  | succ left ih =>
    intro done cs
    rw [settle]
    cases hchanged : (st.substitutePass cs).changed with
    | false =>
      exact ⟨[], st.substitutePass cs, .last cs, .inl ⟨hchanged, Nat.zero_le _, by simp [causesOf]⟩⟩
    | true =>
      obtain ⟨front, last, hpasses, hlast⟩ := ih (done + 1) (st.substitutePass cs).text
      refine ⟨st.substitutePass cs :: front, last, .step hchanged hpasses, ?_⟩
      rcases hlast with ⟨hsame, hle, hsettle⟩ | ⟨hmore, hle, hsettle⟩
      · exact .inl ⟨hsame, Nat.succ_le_succ hle, by simp [causesOf, hsettle]⟩
      · have hcount : done + 1 + (front.length + 1) = done + (front.length + 1 + 1) := by omega
        rw [hcount] at hsettle
        exact .inr ⟨hmore, congrArg Nat.succ hle, by simp [causesOf, hsettle]⟩

/-- String literals settle, or it is said that they do not. No slice of a pass ends inside a
character, and a pass that replaces nothing gives back its text. So a literal is expanded in one
pass or more, up to the limit. Either the last pass replaced nothing and would replace nothing
again, or the limit was used up, which is the last thing said; and the text of the literal is what
the last pass left, unescaped. -/
theorem expandString_settles (st : State) :
    (∀ text, Stored.pass? st text = some (st.substitutePass text) ∧
      ((st.substitutePass text).changed = false → (st.substitutePass text).text = text)) ∧
      ∀ literal, ∃ front last, st.Passes (unquote literal.toList) (front ++ [last]) ∧
        (front ++ [last]).length ≤ max 1 st.config.maxSubstitutions ∧
        (st.expandString literal).1 = String.ofList (unescape last.text) ∧
        (last.changed = false ∧ st.substitutePass last.text = last ∧
            (st.expandString literal).2 = causesOf (front ++ [last]) ∨
          last.changed = true ∧ (front ++ [last]).length = max 1 st.config.maxSubstitutions ∧
            (st.expandString literal).2 =
              causesOf (front ++ [last]) ++ [.unsettledString (front ++ [last]).length]) := by
  refine ⟨fun text => ⟨Stored.pass?_eq st text, text_of_unchanged⟩, fun literal => ?_⟩
  obtain ⟨front, last, hpasses, hlast⟩ :=
    st.exists_passes (st.config.maxSubstitutions - 1) 0 (unquote literal.toList)
  have hlength : (front ++ [last]).length = front.length + 1 := by simp
  refine ⟨front, last, hpasses, ?_⟩
  rw [hlength, expandString]
  rcases hlast with ⟨hsame, hle, hsettle⟩ | ⟨hmore, hle, hsettle⟩
  · rw [hsettle]
    exact ⟨by omega, rfl, .inl ⟨hsame, hpasses.settled (by simp) hsame, rfl⟩⟩
  · rw [hsettle, Nat.zero_add]
    exact ⟨by omega, rfl, .inr ⟨hmore, by omega, rfl⟩⟩

/-- A string equate that holds its own name, where two passes are allowed. -/
def selfReference : State :=
  { ofConfig { maxSubstitutions := 2 } with strings := ⟨[("me", ⟨"a.asm", 1, "é\x7bme\x7d"⟩)]⟩ }

theorem expandString_settles_selfReference :
    (selfReference.substitutePass "\\\x7bé\x7bé\\".toList).changed = false ∧
      (selfReference.substitutePass "\\\x7bé\x7bé\\".toList).text =
        "\\\x7bé\x7bé\\".toList ∧
      ∃ front last, selfReference.Passes "a\x7bme\x7d".toList (front ++ [last]) ∧
        (front ++ [last]).length = 2 ∧ last.changed = true ∧
        (selfReference.expandString "\"a\x7bme\x7d\"").1 = "aéé\x7bme\x7d" := by
  obtain ⟨hpass, hliteral⟩ := selfReference.expandString_settles
  have hsame : (selfReference.substitutePass "\\\x7bé\x7bé\\".toList).changed = false := by
    decide +kernel
  have hexpand : (selfReference.expandString "\"a\x7bme\x7d\"") =
      ("aéé\x7bme\x7d", [.unsettledString 2]) := by
    decide +kernel
  refine ⟨hsame, (hpass _).2 hsame, ?_⟩
  obtain ⟨front, last, hpasses, hle, -, hlast⟩ := hliteral "\"a\x7bme\x7d\""
  rw [hexpand] at hlast
  rcases hlast with ⟨-, -, hcauses⟩ | ⟨hmore, hlength, -⟩
  · -- The limit was used up, which no pass says.
    have hsaid : EvaluationCause.unsettledString 2 ∈ causesOf (front ++ [last]) := by
      rw [← hcauses]
      exact List.mem_singleton_self _
    exact absurd hsaid (by simp [causesOf])
  · exact ⟨front, last, hpasses, hlength, hmore, by rw [hexpand]⟩

end State

end Sm83Asm
