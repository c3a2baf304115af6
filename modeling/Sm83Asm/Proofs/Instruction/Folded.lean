import Mathlib
import Sm83Asm.Proofs.Instruction.Delimiting
import Sm83Asm.Proofs.Instruction.Overflow
import Sm83Asm.Proofs.Layout.Edit
import Sm83Asm.Proofs.Run.History

set_option autoImplicit false

/-!
# Numbers folded into opcodes

`BIT`, `RES`, `SET` and `RST` have a number in their opcode. Selecting the variant computes this
number once for every variant that is tried and checks its range, and encoding computes it again.
Nothing is checked at that last time. An operand that draws no random numbers has the same value
whenever it is computed, so what is folded in is what was checked, and the sum is an opcode of the
same instruction (`encode_folded`).

An operand with `RANDINT` can pass the check with one number and be encoded with another. A bit
number of eight turns `BIT` into `RES` (`unchecked_number_encoded`).
-/

namespace Sm83Asm

/-- The mnemonics of the instructions with a number in their opcode. -/
def foldingMnemonics : List String := ["bit", "res", "set", "rst"]

/-- Whether a number passes the range check of a pattern that folds its operand. -/
def Pattern.accepts : Pattern → Int32 → Bool
  | .u3, n => 0 ≤ n && n ≤ 7
  | .vector, n => 0 ≤ n && n ≤ 0x38 && n % 8 == 0
  | _, _ => false

/-- What a pattern that folds its operand adds to the opcode for a number. -/
def Pattern.folded : Pattern → Int32 → UInt8
  | .u3, n => n.toUInt32.toUInt8 * 8
  | .vector, n => n.toUInt32.toUInt8
  | _, _ => 0

/-- A number that passes the range check adds a multiple of eight, up to seven times eight. -/
theorem Pattern.exists_folded_of_accepts {p : Pattern} {n : Int32} (h : p.accepts n = true) :
    ∃ k ≤ 7, p.folded n = UInt8.ofNat (8 * k) := by
  have haddends : ∀ a ∈ Pattern.u3.addends, ∃ k ≤ 7, a = UInt8.ofNat (8 * k) := by
    decide +kernel
  cases p with
  | u3 => exact haddends _ (bitNumber_addend h)
  | vector => exact haddends _ (vector_addend h)
  | _ => exact absurd h (by simp [Pattern.accepts])

/-- A variant whose first operand is folded, with room for it in the opcode, and whose other
operands are told by their spelling. -/
structure Variant.Folds (v : Variant) (p : Pattern) (ps : List Pattern) : Prop where
  operands : v.operands = p :: ps
  pattern : p = .u3 ∨ p = .vector
  spelled : ∀ q ∈ ps, q ∈ bytePatterns
  trail : v.trail = none
  room : v.opcode.toNat + 8 * 7 < 256

/-- The variants of the four mnemonics all fold their first operand. -/
theorem table_folds : ∀ entry ∈ instructionTable, entry.1 ∈ foldingMnemonics → ∀ v ∈ entry.2,
    v.Folds (v.operands.headD .u3) v.operands.tail := by
  have htable : (instructionTable.all fun entry => !foldingMnemonics.contains entry.1 ||
      entry.2.all fun v => v.operands == v.operands.headD .u3 :: v.operands.tail &&
        [Pattern.u3, .vector].contains (v.operands.headD .u3) &&
        v.operands.tail.all bytePatterns.contains && v.trail == none &&
        v.opcode.toNat + 8 * 7 < 256) = true := by
    decide +kernel
  intro entry hentry hword v hv
  simp only [List.all_eq_true, Bool.or_eq_true, Bool.not_eq_true', List.contains_eq_mem,
    decide_eq_false_iff_not, Bool.and_eq_true, beq_iff_eq, decide_eq_true_eq, List.mem_cons,
    List.not_mem_nil, or_false] at htable
  obtain ⟨⟨⟨⟨hoperands, hpattern⟩, hspelled⟩, htrail⟩, hroom⟩ :=
    (htable entry hentry).resolve_left (not_not_intro hword) v hv
  exact ⟨hoperands, hpattern, hspelled, htrail, hroom⟩

namespace Scope

variable {sc : Scope}

/-- The number of an operand when it is encoded, behind the selection of the variant. -/
def encodedNumber (sc : Scope) (word : Token) (args : List Expr) (s : Emission) (e : Expr) :
    Int32 :=
  (sc.number e (sc.selectVariant (Text.lower word.text) args s.linkage.random).state).value

/-- Nothing is computed with an operand that is told by its spelling. -/
theorem computes_spelled : ∀ q ∈ bytePatterns, q.computes = false := by
  decide

/-- Operands that are told by their spelling leave no code. -/
theorem operandCodes_of_spelled (offset : Nat) (ps : List Pattern) :
    ∀ (es : List Expr) (s : Emission), (∀ q ∈ ps, q ∈ bytePatterns) →
      (sc.operandCodes offset ps es s).value = {} := by
  induction ps with
  | nil =>
    intro es s _
    rfl
  | cons q ps ih =>
    intro es s h
    rw [List.forall_mem_cons] at h
    cases es with
    | nil => rfl
    | cons e es =>
      have hcode : sc.operandCode offset q e = (return {}) := by
        have hq := h.1
        simp only [bytePatterns, List.mem_cons, List.not_mem_nil, or_false] at hq
        obtain rfl | rfl | rfl | rfl | rfl | rfl | rfl | rfl := hq <;> rfl
      simp only [operandCodes, hcode, Act.bind_apply, Act.pure_apply, List.length_nil,
        Nat.add_zero, ih es s h.2]
      rfl

/-- An operand that is folded leaves no bytes, and adds what its number at this time stands for. -/
theorem operandCode_folded {p : Pattern} (hp : p = .u3 ∨ p = .vector) (offset : Nat) (e : Expr)
    (s : Emission) :
    (sc.operandCode offset p e s).value =
      { addend := p.folded (sc.number e s.linkage.random).value } := by
  obtain rfl | rfl := hp
  · rfl
  · rfl

/-- A bit number that passes the range check can be multiplied. -/
theorem toUInt8_lt_of_accepts {n : Int32} (h : Pattern.u3.accepts n = true) :
    n.toUInt32.toUInt8.toNat < 32 := by
  simp only [Pattern.accepts, Bool.and_eq_true, decide_eq_true_eq] at h
  obtain ⟨k, hk, rfl⟩ := exists_ofNat_of_range (by decide : 7 < 2 ^ 31) h.1 h.2
  clear h
  revert k
  decide

/-- A number that passes the range check is folded without an overflow. -/
theorem keeps_operandCode_folded {p : Pattern} (hp : p = .u3 ∨ p = .vector) (offset : Nat)
    {e : Expr} {s : Emission} (h : p.accepts (sc.number e s.linkage.random).value = true)
    (hs : s.overflowed = false) : (sc.operandCode offset p e s).state.overflowed = false := by
  obtain rfl | rfl := hp
  · have hlt := toUInt8_lt_of_accepts h
    rw [← Bool.not_eq_true, overflowed_bitNumber, hs]
    simpa using hlt
  · exact hs

/-- An operand without random numbers that fits has, at any later time, a number that passes. -/
theorem accepts_of_fits {p : Pattern} (hp : p = .u3 ∨ p = .vector) {e : Expr}
    (hs : e.isSteady = true) {r : Random} (h : (sc.fits p e r).value = true) (r' : Random) :
    p.accepts (sc.number e r').value = true := by
  obtain rfl | rfl := hp
  · simp only [fits] at h
    split at h
    · exact number_of_constantIn hs h r'
    · simp at h
  · simp only [fits] at h
    split at h
    · exact number_of_constantIn hs h r'
    · simp at h

/-- Patterns fit operands only if there are operands, and the first pattern fits the first one. -/
theorem exists_fits_of_fitAll {p : Pattern} {ps : List Pattern} {args : List Expr} {r : Random}
    (h : (sc.fitAll (p :: ps) args r).value = true) :
    ∃ e es, args = e :: es ∧ (sc.fits p e r).value = true := by
  cases args with
  | nil => simp [fitAll] at h
  | cons e es =>
    simp only [fitAll, Act.bind_apply] at h
    split at h
    · rename_i hfits
      exact ⟨e, es, rfl, hfits⟩
    · simp at h

/-- An instruction whose first operand is folded: the variant that was selected, its pattern for
the operand, and the byte that the number of the operand makes of the opcode. -/
structure Folded (sc : Scope) (word : Token) (args : List Expr) (s : Emission)
    (bytes : List UInt8) (v : Variant) (p : Pattern) (e : Expr) : Prop where
  selected : (sc.selectVariant (Text.lower word.text) args s.linkage.random).value = some v
  pattern : v.operands.head? = some p
  operand : args.head? = some e
  bytes : bytes = v.lead.toList ++ [v.opcode + p.folded (sc.encodedNumber word args s e)]

/-- The number that is folded passes the check of the variant: it adds eight times `k`, up to seven,
and the sum stays a byte. -/
structure AsChecked (sc : Scope) (word : Token) (args : List Expr) (s : Emission)
    (bytes : List UInt8) (v : Variant) (p : Pattern) (e : Expr) : Prop where
  accepts : p.accepts (sc.encodedNumber word args s e) = true
  sum : ∃ k ≤ 7, p.folded (sc.encodedNumber word args s e) = UInt8.ofNat (8 * k) ∧
    v.opcode.toNat + 8 * k < 256 ∧
    bytes = v.lead.toList ++ [UInt8.ofNat (v.opcode.toNat + 8 * k)]

/-- Numbers are folded as they were checked. Wherever `BIT`, `RES`, `SET` or `RST` is encoded, the
code is the lead byte of the selected variant and its opcode, to which the number of the first
operand is added as it is when encoding begins. If the operand draws no random numbers, or if that
number passes the range check for another reason, the sum does not overflow and is the opcode plus
eight times a number up to seven. -/
theorem encode_folded (sc : Scope) (word : Token) (args : List Expr) (s : Emission)
    (bytes : List UInt8) (hword : Text.lower word.text ∈ foldingMnemonics)
    (h : (sc.encode word args s).value = some bytes) :
    ∃ v p e, sc.Folded word args s bytes v p e ∧
      (e.isSteady = true ∨ p.accepts (sc.encodedNumber word args s e) = true →
        sc.AsChecked word args s bytes v p e) := by
  simp only [encode, Act.drawing, Act.bind_apply, Act.linking_apply, Act.evaluating_apply] at h
  cases hv : (sc.selectVariant (Text.lower word.text) args s.linkage.random).value with
  | none => simp [hv] at h
  | some v =>
    obtain ⟨⟨variants, hentry, hmem⟩, r, hfitAll⟩ := selectVariant_some hv
    rw [lower_lower] at hentry
    have hfolds := table_folds _ hentry hword v hmem
    generalize v.operands.headD .u3 = p at hfolds
    generalize v.operands.tail = ps at hfolds
    rw [hfolds.operands] at hfitAll
    obtain ⟨e, es, rfl, hfits⟩ := exists_fits_of_fitAll hfitAll
    have hhalt : (Text.lower word.text == "halt") = false := by
      rw [beq_eq_false_iff_ne]
      rintro hhalt
      rw [hhalt] at hword
      exact absurd hword (by decide)
    simp only [hv, hfolds.operands, hfolds.trail, hhalt, operandCodes, Act.bind_apply,
      Act.pure_apply, Option.some.injEq, operandCode_folded hfolds.pattern,
      operandCodes_of_spelled _ _ _ _ hfolds.spelled] at h
    have hbytes : bytes = v.lead.toList ++
        [v.opcode + p.folded (sc.encodedNumber word (e :: es) s e)] := by
      rw [← h]
      simp [encodedNumber]
    refine ⟨v, p, e, ⟨hv, by rw [hfolds.operands]; rfl, rfl, hbytes⟩, fun hcheck => ?_⟩
    have haccepts : p.accepts (sc.encodedNumber word (e :: es) s e) = true := by
      rcases hcheck with hsteady | haccepts
      · exact accepts_of_fits hfolds.pattern hsteady hfits _
      · exact haccepts
    obtain ⟨k, hk, hfolded⟩ := Pattern.exists_folded_of_accepts haccepts
    have hroom := hfolds.room
    refine ⟨haccepts, k, hk, hfolded, by omega, ?_⟩
    rw [hbytes, hfolded, UInt8.ofNat_add, UInt8.ofNat_toNat]

/-- Where the number that is folded passes the check, nothing overflows. -/
theorem overflowed_of_asChecked {word : Token} {args : List Expr} {s : Emission}
    {bytes : List UInt8} {v : Variant} {p : Pattern} {e : Expr}
    (hword : Text.lower word.text ∈ foldingMnemonics) (hs : s.overflowed = false)
    (hfolded : sc.Folded word args s bytes v p e)
    (hchecked : sc.AsChecked word args s bytes v p e) :
    (sc.encode word args s).state.overflowed = false := by
  obtain ⟨⟨variants, hentry, hmem⟩, -⟩ := selectVariant_some hfolded.selected
  rw [lower_lower] at hentry
  have hfolds := table_folds _ hentry hword v hmem
  obtain rfl : v.operands.headD .u3 = p := by simp [List.headD_eq_head?_getD, hfolded.pattern]
  generalize v.operands.headD .u3 = p at hfolds hchecked
  generalize v.operands.tail = ps at hfolds
  obtain ⟨es, rfl⟩ := List.head?_eq_some_iff.1 hfolded.operand
  have haccepts := hchecked.accepts
  obtain ⟨k, hk, hk', hroom, -⟩ := hchecked.sum
  rw [encodedNumber] at haccepts hk'
  simp only [encode, Act.drawing, Act.bind_apply, Act.linking_apply, Act.evaluating_apply,
    hfolded.selected, hfolds.operands, operandCodes, Act.checked_apply, Act.pure_apply,
    operandCode_folded hfolds.pattern, operandCodes_of_spelled _ _ _ _ hfolds.spelled]
  have hspelled : ∀ q ∈ ps, q.computes = false := fun q hq =>
    computes_spelled q (hfolds.spelled q hq)
  have hrest : ∀ offset s', s'.overflowed = false →
      (sc.operandCodes offset ps es s').state.overflowed = false := fun offset =>
    sc.keeps_operandCodes ps es offset (.inl hspelled)
  rw [Bool.or_eq_false_iff]
  constructor
  · rw [hrest]
    apply keeps_operandCode_folded hfolds.pattern
    · dsimp only
      exact haccepts
    · exact hs
  · rw [hk', UInt8.add_zero, Checked.overflowed_byteSum, UInt8.toNat_ofNat', Nat.mod_eq_of_lt]
    · exact hroom
    · omega

/-- The operands of `SET 7,[hl]`. -/
def sampleBit : List Expr :=
  [.number (sampleToken "7"), .bracket (sampleToken "[") (.identifier (sampleToken "hl"))]

theorem encode_folded_sampleBit :
    (sampleScope.encode (sampleToken "SET") sampleBit sampleScope.state.emission).value =
        some [0xCB, 0xFE] ∧
      ∃ v p e, sampleScope.AsChecked (sampleToken "SET") sampleBit sampleScope.state.emission
        [0xCB, 0xFE] v p e := by
  have hencode :
      (sampleScope.encode (sampleToken "SET") sampleBit sampleScope.state.emission).value =
        some [0xCB, 0xFE] := by
    decide +kernel
  obtain ⟨v, p, e, hfolded, hchecked⟩ := encode_folded sampleScope (sampleToken "SET") sampleBit
    sampleScope.state.emission [0xCB, 0xFE] (by decide) hencode
  obtain rfl : .number (sampleToken "7") = e := Option.some.inj hfolded.operand
  exact ⟨hencode, v, p, _, hchecked (.inl rfl)⟩

/-! ## Operands with random numbers -/

/-- A section in a run whose random source starts from 17. -/
def rolledScope : Scope :=
  ((Assembler.new { seed := 17 } (.memory {})).runAll
    [.text "a.asm" " SECTION \"a\",ROM0\n"]).state.scope

/-- The operands of `bit RANDINT(0,8),b`. -/
def rolledOperands : List Expr :=
  [.call (sampleToken "RANDINT") [.number (sampleToken "0"), .number (sampleToken "8")],
    .identifier (sampleToken "b")]

/-- Folding does not keep to what was checked in general. After seed 17, `RANDINT(0,8)` draws 3 for
the check and 8 for the opcode, so that `bit RANDINT(0,8),b` is encoded as `res 0,b`. -/
theorem unchecked_number_encoded :
    ¬ ∀ (sc : Scope) (word : Token) (args : List Expr) (s : Emission) (bytes : List UInt8),
      Text.lower word.text ∈ foldingMnemonics → (sc.encode word args s).value = some bytes →
        ∃ v p e, sc.Folded word args s bytes v p e ∧ sc.AsChecked word args s bytes v p e := by
  intro h
  have hencode : (rolledScope.encode (sampleToken "bit") rolledOperands
      rolledScope.state.emission).value = some [0xCB, 0x80] := by
    decide +kernel
  have hnumber : rolledScope.encodedNumber (sampleToken "bit") rolledOperands
      rolledScope.state.emission (rolledOperands.headD (.number (sampleToken "0"))) = 8 := by
    decide +kernel
  have hselected : (rolledScope.selectVariant (Text.lower (sampleToken "bit").text) rolledOperands
      rolledScope.state.emission.linkage.random).value = some (paged [.u3, .reg .b] 0x40) := by
    decide +kernel
  obtain ⟨v, p, e, hfolded, hchecked⟩ := h rolledScope (sampleToken "bit") rolledOperands
    rolledScope.state.emission _ (by decide) hencode
  obtain rfl : rolledOperands.headD (.number (sampleToken "0")) = e :=
    Option.some.inj hfolded.operand
  obtain rfl : paged [.u3, .reg .b] 0x40 = v :=
    Option.some.inj (hselected.symm.trans hfolded.selected)
  obtain rfl : Pattern.u3 = p := Option.some.inj hfolded.pattern
  have haccepts := hchecked.accepts
  rw [hnumber] at haccepts
  exact absurd haccepts (by decide)

end Scope

end Sm83Asm
