import Mathlib.Data.List.TakeDrop
import Mathlib.Data.List.TakeWhile
import Mathlib.Data.Nat.Digits.Defs
import Mathlib.Tactic.Ring
import Sm83Asm.Define
import Sm83Asm.Value

set_option autoImplicit false

/-!
# Spellings of numbers

An integer literal writes a number in one of four radices, with any zeros in front and with
underscores wherever they cannot be taken for a name. This module says what a literal spells without
reading it: a row of digits, the highest first, and the number that they make. Reading then gives
that number, as long as it has 32 bits, and nothing otherwise (`value?_of_spells`).

Two writers are checked against the reader: the default text of an interpolated number
(`value?_formatValue`), and definitions on the command line (`parseDefine_of_spells`).
-/

namespace Sm83Asm

namespace Text

theorem splitOnce?_of_not_mem {sep : Char} {cs : List Char} (h : sep ∉ cs) :
    splitOnce? sep cs = none := by
  have hall : ∀ c ∈ cs, (c != sep) = true := by
    intro c hc
    rw [bne_iff_ne]
    rintro rfl
    exact h hc
  rw [splitOnce?, List.span_eq_takeWhile_dropWhile, List.dropWhile_eq_nil_iff.2 hall]

theorem splitOnce?_append {sep : Char} {front : List Char} (h : sep ∉ front) (back : List Char) :
    splitOnce? sep (front ++ sep :: back) = some (front, back) := by
  have hall : ∀ c ∈ front, (c != sep) = true := by
    intro c hc
    rw [bne_iff_ne]
    rintro rfl
    exact h hc
  rw [splitOnce?, List.span_eq_takeWhile_dropWhile, List.takeWhile_append_of_pos hall,
    List.dropWhile_append_of_pos hall]
  simp

theorem trimStart_of_no_blank {cs : List Char} (h : ∀ c ∈ cs, isBlank c = false) :
    trimStart cs = cs := by
  cases cs with
  | nil => rfl
  | cons c cs => rw [trimStart, List.dropWhile_cons_of_neg (by simp [h c List.mem_cons_self])]

/-- A text without blanks is not shortened. -/
theorem trim_of_no_blank {cs : List Char} (h : ∀ c ∈ cs, isBlank c = false) : trim cs = cs := by
  rw [trim, trimStart_of_no_blank h,
    trimStart_of_no_blank fun c hc => h c (List.mem_reverse.1 hc), List.reverse_reverse]

end Text

namespace Numeral

/-! ## Radices -/

/-- The radices of integer literals. -/
inductive Radix where
  | hexadecimal
  | binary
  | octal
  | decimal
deriving DecidableEq, Repr

namespace Radix

/-- The number of digits. -/
def base : Radix → Nat
  | .hexadecimal => 16
  | .binary => 2
  | .octal => 8
  | .decimal => 10

/-- What stands in front of the digits. -/
def mark : Radix → List Char
  | .hexadecimal => ['$']
  | .binary => ['%']
  | .octal => ['&']
  | .decimal => []

/-- Whether a character writes a digit. The letters of hexadecimal have two cases, and the digits of
binary are those of the options. -/
def Writes (options : Options) (radix : Radix) (d : Nat) (c : Char) : Prop :=
  d < radix.base ∧
    match radix with
    | .hexadecimal => c = d.digitChar ∨ c = d.digitChar.toUpper
    | .binary => options.binaryList[d]? = some c
    | .octal | .decimal => c = d.digitChar

/-- How a literal reads a digit. -/
def digit? (options : Options) : Radix → Char → Option Nat
  | .binary => fun c => options.binaryList.findIdx? (· == c)
  | .hexadecimal => digitOf? 16
  | .octal => digitOf? 8
  | .decimal => digitOf? 10

/-- Digits can be told from each other and from underscores. Only the options can get in the way of
that, and they say what the digits of binary are. -/
def Readable (options : Options) (radix : Radix) : Prop :=
  radix = .binary → options.binaryList.Nodup ∧ '_' ∉ options.binaryList

theorem base_pos (radix : Radix) : 0 < radix.base := by cases radix <;> decide

end Radix

/-- A row of digits, the highest first, with underscores between them and at both ends. -/
inductive DigitRow (options : Options) (radix : Radix) : List Nat → List Char → Prop
  | nil : DigitRow options radix [] []
  | underscore {ds : List Nat} {cs : List Char} (h : DigitRow options radix ds cs) :
      DigitRow options radix ds ('_' :: cs)
  | digit {d : Nat} {c : Char} {ds : List Nat} {cs : List Char} (hc : radix.Writes options d c)
      (h : DigitRow options radix ds cs) : DigitRow options radix (d :: ds) (c :: cs)

/-- A literal spells a number when the digits behind the mark of a radix make the number. An
underscore in front of decimal digits would begin a name. -/
def Spells (options : Options) (radix : Radix) (n : Nat) (text : String) : Prop :=
  ∃ ds cs, DigitRow options radix ds cs ∧ ds ≠ [] ∧ (radix = .decimal → cs.head? ≠ some '_') ∧
    Nat.ofDigits radix.base ds.reverse = n ∧ text = String.ofList (radix.mark ++ cs)

/-! ## Digits -/

section Reading

variable {options : Options} {radix : Radix}

theorem digitOf?_digitChar :
    (∀ d < 16, digitOf? 16 d.digitChar = some d ∧ digitOf? 16 d.digitChar.toUpper = some d) ∧
      (∀ d < 8, digitOf? 8 d.digitChar = some d) ∧ ∀ d < 10, digitOf? 10 d.digitChar = some d := by
  decide

/-- A digit is read as it is written. -/
theorem digit?_of_writes (hr : radix.Readable options) {d : Nat} {c : Char}
    (h : radix.Writes options d c) : radix.digit? options c = some d := by
  obtain ⟨hd, hc⟩ := h
  obtain ⟨hhex, hoct, hdec⟩ := digitOf?_digitChar
  cases radix with
  | hexadecimal =>
    rcases hc with rfl | rfl
    · exact (hhex d hd).1
    · exact (hhex d hd).2
  | binary =>
    obtain ⟨hlt, rfl⟩ := List.getElem?_eq_some_iff.1 hc
    -- The digit is the first with its character, because no two digits are alike.
    refine List.findIdx?_eq_some_iff_getElem.2 ⟨hlt, beq_self_eq_true _, ?_⟩
    intro j hj heq
    exact Nat.ne_of_lt hj ((List.getElem_inj (hr rfl).1).1 (beq_iff_eq.1 heq))
  | octal =>
    subst hc
    exact hoct d hd
  | decimal =>
    subst hc
    exact hdec d hd

/-- No digit is an underscore. -/
theorem ne_underscore_of_writes (hr : radix.Readable options) {d : Nat} {c : Char}
    (h : radix.Writes options d c) : c ≠ '_' := by
  obtain ⟨hd, hc⟩ := h
  have hchar : d.digitChar ≠ '_' := Nat.digitChar_ne '_' rfl
  have hupper : ∀ d < 16, d.digitChar.toUpper ≠ '_' := by decide
  rintro rfl
  cases radix with
  | hexadecimal =>
    rcases hc with hc | hc
    · exact hchar hc.symm
    · exact hupper d hd hc.symm
  | binary => exact (hr rfl).2 (List.mem_of_getElem? hc)
  | octal => exact hchar hc.symm
  | decimal => exact hchar hc.symm

theorem length_significant_row (hr : radix.Readable options) {ds : List Nat} {cs : List Char}
    (h : DigitRow options radix ds cs) : (significant cs).length = ds.length := by
  induction h with
  | nil => rfl
  | underscore _ ih => exact ih
  | digit hc _ ih =>
    have hkept := ne_underscore_of_writes hr hc
    simp [significant, hkept, ← ih]

/-! ## Values -/

/-- Digits go on accumulating the number that they make, as long as it has 32 bits. -/
theorem accumulate_row (hr : radix.Readable options) {ds : List Nat} {cs : List Char}
    (h : DigitRow options radix ds cs) {v : Nat} (hv : v < 0x100000000) :
    accumulate radix.base (radix.digit? options) v (significant cs) =
      if v * radix.base ^ ds.length + Nat.ofDigits radix.base ds.reverse < 0x100000000 then
        some (v * radix.base ^ ds.length + Nat.ofDigits radix.base ds.reverse)
      else none := by
  induction h generalizing v with
  | nil => simp [significant, accumulate, hv]
  | underscore _ ih => exact ih hv
  | @digit d c ds cs hc _ ih =>
    have hkept : significant (c :: cs) = c :: significant cs := by
      simp [significant, ne_underscore_of_writes hr hc]
    have hvalue : v * radix.base ^ (d :: ds).length + Nat.ofDigits radix.base (d :: ds).reverse =
        (v * radix.base + d) * radix.base ^ ds.length + Nat.ofDigits radix.base ds.reverse := by
      rw [List.reverse_cons, Nat.ofDigits_append, Nat.ofDigits_singleton, List.length_reverse,
        List.length_cons]
      ring
    rw [hkept, hvalue]
    simp only [accumulate, digit?_of_writes hr hc]
    split
    · rename_i hnext
      exact ih hnext
    · rename_i hnext
      have hle : v * radix.base + d ≤ (v * radix.base + d) * radix.base ^ ds.length :=
        Nat.le_mul_of_pos_right _ (Nat.pow_pos radix.base_pos)
      rw [if_neg (by omega)]

theorem positional?_row (hr : radix.Readable options) {ds : List Nat} {cs : List Char}
    (h : DigitRow options radix ds cs) (hne : ds ≠ []) :
    positional? radix.base (radix.digit? options) cs =
      if Nat.ofDigits radix.base ds.reverse < 0x100000000 then
        some (UInt32.ofNat (Nat.ofDigits radix.base ds.reverse)).toInt32
      else none := by
  have hvalue := accumulate_row hr h (v := 0) (by decide)
  have hlength := length_significant_row hr h
  rw [Nat.zero_mul, Nat.zero_add] at hvalue
  unfold positional?
  split
  · rename_i hnil
    rw [hnil] at hlength
    exact absurd (List.length_eq_zero_iff.1 hlength.symm) hne
  · rw [hvalue, apply_ite (Option.map _)]
    rfl

/-- The characters of a row are underscores and digits. -/
theorem writes_of_mem_row {ds : List Nat} {cs : List Char} (h : DigitRow options radix ds cs) :
    ∀ c ∈ cs, c = '_' ∨ ∃ d, radix.Writes options d c := by
  induction h with
  | nil => simp
  | underscore _ ih => exact List.forall_mem_cons.2 ⟨.inl rfl, ih⟩
  | digit hc _ ih => exact List.forall_mem_cons.2 ⟨.inr ⟨_, hc⟩, ih⟩

/-- A decimal literal begins with a digit. -/
theorem exists_cons_of_decimal {ds : List Nat} {cs : List Char}
    (h : DigitRow options .decimal ds cs) (hne : ds ≠ []) (hfirst : cs.head? ≠ some '_') :
    ∃ c rest, cs = c :: rest ∧ c.isDigit = true := by
  cases h with
  | nil => exact absurd rfl hne
  | underscore => exact absurd rfl hfirst
  | @digit d c ds cs hc =>
    obtain ⟨hd, rfl⟩ := hc
    exact ⟨_, cs, rfl, by simpa [Nat.isDigit_digitChar, Radix.base] using hd⟩

theorem isDigit_of_decimal {ds : List Nat} {cs : List Char} (h : DigitRow options .decimal ds cs) :
    ∀ c ∈ cs, c = '_' ∨ c.isDigit = true := by
  intro c hc
  refine (writes_of_mem_row h c hc).imp_right ?_
  rintro ⟨d, hd, rfl⟩
  simpa [Nat.isDigit_digitChar, Radix.base] using hd

theorem ne_of_isDigit {c x : Char} (hc : c.isDigit = true) (hx : x.isDigit = false) : c ≠ x := by
  rintro rfl
  exact absurd (hc.symm.trans hx) (by simp)

/-- A literal that begins with a digit and has no point is a row of decimal digits. -/
theorem value?_of_isDigit {c : Char} {cs : List Char} (hc : c.isDigit = true)
    (hpoint : '.' ∉ c :: cs) :
    value? options (String.ofList (c :: cs)) = positional? 10 (digitOf? 10) (c :: cs) := by
  unfold value?
  rw [String.toList_ofList]
  split
  · rename_i heq
    exact absurd (List.cons.inj heq).1 (ne_of_isDigit hc rfl)
  · rename_i heq
    exact absurd (List.cons.inj heq).1 (ne_of_isDigit hc rfl)
  · rename_i heq
    exact absurd (List.cons.inj heq).1 (ne_of_isDigit hc rfl)
  · have hquote : c ≠ backQuote := ne_of_isDigit hc rfl
    rw [if_neg (by simpa using hquote), Text.splitOnce?_of_not_mem hpoint]

/-- A literal has the number that it spells, as long as that has 32 bits. -/
theorem value?_of_spells (hr : radix.Readable options) {n : Nat} {text : String}
    (h : Spells options radix n text) :
    value? options text =
      if n < 0x100000000 then some (UInt32.ofNat n).toInt32 else none := by
  obtain ⟨ds, cs, hrow, hne, hfirst, rfl, rfl⟩ := h
  rw [← positional?_row hr hrow hne]
  cases radix with
  | hexadecimal => simp [value?, Radix.mark, Radix.base, Radix.digit?]
  | binary => simp [value?, Radix.mark, Radix.base, Radix.digit?]
  | octal => simp [value?, Radix.mark, Radix.base, Radix.digit?]
  | decimal =>
    obtain ⟨c, rest, rfl, hc⟩ := exists_cons_of_decimal hrow hne (hfirst rfl)
    apply value?_of_isDigit hc
    intro hpoint
    exact absurd (isDigit_of_decimal hrow _ hpoint) (by decide)

end Reading

/-! ## Interpolated numbers -/

section Printing

variable {options : Options}

theorem DigitRow.append {radix : Radix} {ds es : List Nat} {cs more : List Char}
    (h : DigitRow options radix ds cs) (hmore : DigitRow options radix es more) :
    DigitRow options radix (ds ++ es) (cs ++ more) := by
  induction h with
  | nil => exact hmore
  | underscore _ ih => exact .underscore ih
  | digit hc _ ih => exact .digit hc ih

/-- The digits of a number, written through `f`, are a row that makes the number. -/
theorem exists_row_toDigits {radix : Radix} (f : Char → Char)
    (hf : ∀ d < radix.base, radix.Writes options d (f d.digitChar)) (n : Nat) :
    ∃ ds, ds ≠ [] ∧ DigitRow options radix ds ((Nat.toDigits radix.base n).map f) ∧
      Nat.ofDigits radix.base ds.reverse = n := by
  have hbase : 1 < radix.base := by cases radix <;> decide
  induction n using Nat.strong_induction_on with
  | _ n ih =>
    rw [Nat.toDigits_eq_if hbase]
    split
    · rename_i hlt
      exact ⟨[n], by simp, .digit (hf n hlt) .nil, Nat.ofDigits_singleton⟩
    · -- The digits of the quotient stand in front of the remainder.
      have hpos : 0 < n := by omega
      obtain ⟨ds, -, hrow, hvalue⟩ := ih (n / radix.base) (Nat.div_lt_self hpos hbase)
      have hlast := hf (n % radix.base) (Nat.mod_lt n radix.base_pos)
      refine ⟨ds ++ [n % radix.base], by simp, ?_, ?_⟩
      · rw [List.map_append]
        exact hrow.append (.digit hlast .nil)
      · rw [List.reverse_append, List.reverse_singleton, List.singleton_append, Nat.ofDigits_cons,
          hvalue, Nat.mod_add_div]

/-- The default text of a number spells its two's complement. -/
theorem spells_hexUpper (options : Options) (v : Int32) :
    Spells options .hexadecimal v.toUInt32.toNat ("$" ++ hexUpper v) := by
  have hdigit : ∀ d < Radix.hexadecimal.base,
      Radix.hexadecimal.Writes options d d.digitChar.toUpper := fun d hd => ⟨hd, .inr rfl⟩
  obtain ⟨ds, hne, hrow, hvalue⟩ := exists_row_toDigits Char.toUpper hdigit v.toUInt32.toNat
  refine ⟨ds, _, hrow, hne, by simp, hvalue, ?_⟩
  simp [hexUpper, hexLower, inBase, Text.upper, Radix.mark, Radix.base, String.ofList_cons]

/-- The default text of a number is a literal for that number. -/
theorem value?_formatValue (options : Options) (v : Int32) :
    ∃ text, State.formatValue none (.number v) = .ok text ∧ value? options text = some v := by
  refine ⟨"$" ++ hexUpper v, rfl, ?_⟩
  rw [value?_of_spells (fun hbinary => absurd hbinary (by decide)) (spells_hexUpper options v),
    if_pos v.toUInt32.toNat_lt]
  simp

end Printing

/-! ## Definitions on the command line -/

section Defining

variable {radix : Radix} {n : Nat} {text : String}

/-- A literal with the usual digits has no blank and no minus in it. -/
theorem plain_of_spells (h : Spells {} radix n text) :
    ∀ c ∈ text.toList, Text.isBlank c = false ∧ c ≠ '-' := by
  have hdigits : ∀ d < 16, (Text.isBlank d.digitChar = false ∧ d.digitChar ≠ '-') ∧
      Text.isBlank d.digitChar.toUpper = false ∧ d.digitChar.toUpper ≠ '-' := by decide
  obtain ⟨ds, cs, hrow, -, -, -, rfl⟩ := h
  rw [String.toList_ofList, List.forall_mem_append]
  constructor
  · cases radix <;> simp [Radix.mark, Text.isBlank]
  · intro c hc
    rcases writes_of_mem_row hrow c hc with rfl | ⟨d, hd, hwrites⟩
    · decide
    have hlt : d < 16 := Nat.lt_of_lt_of_le hd (by cases radix <;> decide)
    cases radix with
    | hexadecimal =>
      rcases hwrites with rfl | rfl
      · exact (hdigits d hlt).1
      · exact (hdigits d hlt).2
    | binary =>
      have hbinary : ∀ c ∈ ({} : Options).binaryList, Text.isBlank c = false ∧ c ≠ '-' := by
        simp [Options.binaryList, Text.isBlank]
      exact hbinary c (List.mem_of_getElem? hwrites)
    | octal =>
      subst hwrites
      exact (hdigits d hlt).1
    | decimal =>
      subst hwrites
      exact (hdigits d hlt).1

theorem parseDefine_of_signedValue? {name value : String} {v : Int32}
    (hequals : '=' ∉ name.toList) (hname : Text.trim name.toList ≠ [])
    (hblank : ∀ c ∈ value.toList, Text.isBlank c = false)
    (hvalue : signedValue? value.toList = some v) :
    parseDefine (name ++ "=" ++ value) = .ok (String.ofList (Text.trim name.toList), v) := by
  have hsplit : Text.splitOnce? '=' (name ++ "=" ++ value).toList =
      some (name.toList, value.toList) := by
    rw [String.toList_append, String.toList_append, List.append_assoc]
    exact Text.splitOnce?_append hequals value.toList
  simp only [parseDefine, hsplit, Text.trim_of_no_blank hblank, List.isEmpty_iff, if_neg hname,
    hvalue]

/-- A definition gives the name its number, and behind a minus the negated number. -/
theorem parseDefine_of_spells (h : Spells {} radix n text) (hn : n < 0x100000000) {name : String}
    (hequals : '=' ∉ name.toList) (hname : Text.trim name.toList ≠ []) :
    parseDefine (name ++ "=" ++ text) =
        .ok (String.ofList (Text.trim name.toList), (UInt32.ofNat n).toInt32) ∧
      parseDefine (name ++ "=-" ++ text) =
        .ok (String.ofList (Text.trim name.toList), -(UInt32.ofNat n).toInt32) := by
  have hplain := plain_of_spells h
  have hvalue : value? {} text = some (UInt32.ofNat n).toInt32 := by
    rw [value?_of_spells (fun _ => by decide) h, if_pos hn]
  constructor
  · apply parseDefine_of_signedValue? hequals hname fun c hc => (hplain c hc).1
    unfold signedValue?
    split
    · rename_i hminus
      exact absurd rfl (hplain '-' (by rw [hminus]; exact List.mem_cons_self)).2
    · rw [String.ofList_toList, hvalue]
  · have hminus : name ++ "=-" ++ text = name ++ "=" ++ ("-" ++ text) := by
      simp [String.append_assoc, ← String.toList_inj]
    have htext : ("-" ++ text).toList = '-' :: text.toList := by simp
    rw [hminus]
    apply parseDefine_of_signedValue? hequals hname
    · rw [htext, List.forall_mem_cons]
      exact ⟨by decide, fun c hc => (hplain c hc).1⟩
    · rw [htext, signedValue?, String.ofList_toList, hvalue]
      rfl

end Defining

end Numeral

end Sm83Asm
