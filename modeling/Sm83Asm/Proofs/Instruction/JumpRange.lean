import Mathlib
import Sm83Asm.Proofs.Instruction.Delimiting
import Sm83Asm.Proofs.Instruction.Overflow
import Sm83Asm.Proofs.Layout.Edit
import Sm83Asm.Proofs.Run.History

set_option autoImplicit false

/-!
# Distances of relative jumps

The distance of a relative jump comes out of two subtractions of 32 bits: the base address of the
section from the address of the target, and the offset behind the operand from the offset of the
target. This module carries out the same subtractions on whole numbers. They never exceed 32 bits
at the upper end. At the lower end they do, for addresses close to `-2 ^ 31`, and such a jump ends
the assembly without a result (`lowest_jump_overflows`). There is no other way for an instruction
`jr` to overflow, and every other one is reported exactly if its target is out of range
(`encode_jump_distance`).
-/

namespace Sm83Asm

/-- Whether a relative jump reaches that far. -/
def InReach (distance : Int) : Prop := -128 ≤ distance ∧ distance ≤ 127

instance (distance : Int) : Decidable (InReach distance) :=
  inferInstanceAs (Decidable (_ ∧ _))

/-- A number that has too few bits at the lower end comes out far above the reach of a jump. -/
theorem inReach_ofInt_iff {n : Int} (hlo : -2 ^ 31 - 2 ^ 18 ≤ n) (hhi : n < 2 ^ 31) :
    (-128 ≤ Int32.ofInt n && Int32.ofInt n ≤ 127) = decide (InReach n) := by
  have hwrapped : (Int32.ofInt n).toInt = n ∨ 127 < (Int32.ofInt n).toInt ∧ n < -128 := by
    rw [Int32.toInt_ofInt, Int.bmod_def]
    simp only [Int32.size]
    split
    · omega
    · omega
  rw [Bool.eq_iff_iff]
  simp only [Bool.and_eq_true, decide_eq_true_eq, Int32.le_iff_toInt_le]
  unfold InReach
  have hneg : (-128 : Int32).toInt = -128 := by decide
  have hpos : (127 : Int32).toInt = 127 := by decide
  rw [hneg, hpos]
  omega

namespace Scope

/-- The offset of a jump target in the open section, where the base address is subtracted on whole
numbers. -/
def exactTarget? (sc : Scope) (e : Expr) : Act Random (Option Int) := do
  match ← sc.target? e with
  | some target => return some target.toInt
  | none => do
    let address ← sc.constant? e
    return match sc.state.section?.bind Section.fixedAddress, address with
      | some start, some address => some (address.toInt - start.toNat)
      | _, _ => none

/-- The subtractions for a jump whose operand lies at `offset` do not exceed 32 bits. -/
def SubtractsWithin (sc : Scope) (offset : Nat) (e : Expr) (r : Random) : Prop :=
  ∀ target, (sc.exactTarget? e r).value = some target →
    HasBits32 target ∧ HasBits32 (target - (offset + 1))

variable {sc : Scope}

/-- Subtracting in 32 bits is subtracting on whole numbers and then cutting off. -/
theorem jumpTarget?_eq_exact (e : Expr) (r : Random) :
    sc.jumpTarget? e r =
      ⟨(sc.exactTarget? e r).value.map Checked.ofInt, (sc.exactTarget? e r).state,
        (sc.exactTarget? e r).reports⟩ := by
  simp only [jumpTarget?, exactTarget?, Act.bind_apply]
  cases ht : (sc.target? e r).value with
  | some target => simp [Checked.exact_eq_ofInt]
  | none =>
    simp only [Act.bind_apply, Act.pure_apply]
    cases hfixed : sc.state.section?.bind Section.fixedAddress with
    | none => rfl
    | some start =>
      cases haddress : (sc.constant? e (sc.target? e r).state).value with
      | none => rfl
      | some address =>
        have hstart : (Int32.ofNat start.toNat).toInt = start.toNat := by
          have hlt := start.toNat_lt
          exact Int32.toInt_ofNat_of_lt (by omega)
        simp [Checked.difference_eq_ofInt, hstart]

/-- A target that is known on whole numbers is known in 32 bits, up to an overflow. -/
theorem jumpTarget?_of_exactTarget? {e : Expr} {r : Random} {target : Int}
    (h : (sc.exactTarget? e r).value = some target) :
    (sc.jumpTarget? e r).value = some (Checked.ofInt target) := by
  rw [jumpTarget?_eq_exact, h]
  rfl

/-- Only base addresses can lead below 32 bits, and they have 16 bits. -/
theorem exactTarget?_bounds {e : Expr} {r : Random} {target : Int}
    (h : (sc.exactTarget? e r).value = some target) :
    -2 ^ 31 - 2 ^ 16 < target ∧ target < 2 ^ 31 := by
  simp only [exactTarget?, Act.bind_apply] at h
  cases ht : (sc.target? e r).value with
  | some found =>
    simp only [ht, Act.pure_apply, Option.some.injEq] at h
    obtain ⟨hlo, hhi⟩ := Int32.hasBits32 found
    omega
  | none =>
    simp only [ht, Act.bind_apply, Act.pure_apply] at h
    split at h
    · rename_i start address _ _
      obtain rfl := Option.some.inj h
      obtain ⟨hlo, hhi⟩ := Int32.hasBits32 address
      have hstart := start.toNat_lt
      omega
    · exact absurd h (by simp)

/-- The subtractions exceed 32 bits exactly if the distance lies below them. -/
theorem subtractsWithin_iff {offset : Nat} (hoffset : offset ≤ 2 ^ 16) {e : Expr} {r : Random}
    {target : Int} (h : (sc.exactTarget? e r).value = some target) :
    sc.SubtractsWithin offset e r ↔ -2 ^ 31 ≤ target - (offset + 1) := by
  have hbounds := exactTarget?_bounds h
  constructor
  · intro hwithin
    exact (hwithin target h).2.1
  · intro hlo other hother
    obtain rfl : target = other := Option.some.inj (h.symm.trans hother)
    exact ⟨⟨by omega, by omega⟩, hlo, by omega⟩

/-- What a jump over a distance reports: nothing within reach, and otherwise the distance, cut to 32
bits. -/
def jumpReports (distance : Int) (token : Token) : List Report :=
  if InReach distance then [] else [.evaluation (.jumpTooFar (Int32.ofInt distance)) token]

/-- The offset behind an operand has 32 bits. -/
theorem hasBits32_next {offset : Nat} (hoffset : offset ≤ 2 ^ 16) : HasBits32 (offset + 1) :=
  ⟨by omega, by omega⟩

/-- It is computed as on whole numbers. -/
theorem next_eq_ofInt {offset : Nat} (hoffset : offset ≤ 2 ^ 16) :
    Checked.sum (Int32.ofNat offset) 1 = Checked.ofInt (offset + 1) := by
  rw [Checked.sum_eq_ofInt, Int32.toInt_ofNat_of_lt (by omega)]
  rfl

/-- So the computation does not overflow. -/
theorem overflowed_next {offset : Nat} (hoffset : offset ≤ 2 ^ 16) :
    (Checked.sum (Int32.ofNat offset) 1).overflowed = false := by
  rw [next_eq_ofInt hoffset, ← Bool.not_eq_true, Checked.overflowed_ofInt, not_not]
  exact hasBits32_next hoffset

/-- An operand whose target is known jumps over the exact distance. -/
theorem jumpOperand_of_exactTarget? {offset : Nat} (hoffset : offset ≤ 2 ^ 16) {e : Expr}
    {s : Emission} {target : Int}
    (h : (sc.exactTarget? e s.linkage.random).value = some target) :
    (sc.jumpOperand offset e s).value =
        (Int32.ofInt (target - (offset + 1))).toUInt32.toUInt8 ∧
      (sc.jumpOperand offset e s).reports = (sc.exactTarget? e s.linkage.random).reports ++
        jumpReports (target - (offset + 1)) e.token := by
  obtain ⟨hlo, hhi⟩ := exactTarget?_bounds h
  have hdistance : (Checked.difference (Checked.ofInt target).value
      (Checked.sum (Int32.ofNat offset) 1).value).value =
        Int32.ofInt (target - (offset + 1)) := by
    rw [next_eq_ofInt hoffset]
    exact (Int32.ofInt_sub _ _).symm
  have hreach := inReach_ofInt_iff (n := target - (offset + 1)) (by omega) (by omega)
  rw [jumpOperand_of_jumpTarget? (jumpTarget?_of_exactTarget? h)]
  dsimp only
  rw [hdistance, jumpTarget?_eq_exact]
  refine ⟨rfl, congrArg _ ?_⟩
  rw [hreach, jumpReports]
  simp only [decide_eq_true_eq]

/-- The operand of a jump overflows exactly if one of the subtractions exceeds 32 bits. -/
theorem overflowed_jumpOperand {offset : Nat} (hoffset : offset ≤ 2 ^ 16) (e : Expr)
    (s : Emission) :
    (sc.jumpOperand offset e s).state.overflowed = true ↔
      s.overflowed = true ∨ ¬ sc.SubtractsWithin offset e s.linkage.random := by
  cases h : (sc.exactTarget? e s.linkage.random).value with
  | none =>
    have hwithin : sc.SubtractsWithin offset e s.linkage.random := by
      intro target htarget
      exact absurd (h.symm.trans htarget) (by simp)
    have hnone : (sc.jumpTarget? e s.linkage.random).value = none := by
      rw [jumpTarget?_eq_exact, h]
      rfl
    have hdefer : ∀ s' : Emission, (sc.deferWith [] .jump offset e s').state.overflowed =
        s'.overflowed := fun s' => sc.keeps_deferWith [] .jump offset e s' rfl
    simp only [jumpOperand, Act.drawing, Act.bind_apply, Act.linking_apply, Act.evaluating_apply,
      Act.checked_apply, overflowed_next hoffset, Bool.or_false, hnone, Act.pure_apply, defer,
      hdefer, hwithin, not_true_eq_false, or_false]
  | some target =>
    have hwithin : sc.SubtractsWithin offset e s.linkage.random ↔
        HasBits32 target ∧ HasBits32 (target - (offset + 1)) := by
      simp [SubtractsWithin, h]
    have hnext := hasBits32_next hoffset
    rw [jumpOperand_of_jumpTarget? (jumpTarget?_of_exactTarget? h), hwithin]
    simp only [next_eq_ofInt hoffset, Checked.difference_eq_ofInt, Checked.toInt_ofInt hnext,
      Bool.or_eq_true, Checked.overflowed_ofInt, hnext, not_true_eq_false, or_false, or_assoc]
    -- The second subtraction is of the exact target unless the first one overflowed already.
    by_cases htarget : HasBits32 target
    · simp [htarget, Checked.toInt_ofInt htarget]
    · simp [htarget]

end Scope

/-! ## Jump instructions -/

/-- A variant of a relative jump: the target is its last operand, behind a condition or alone. -/
def Variant.IsJump (v : Variant) : Prop :=
  v.operands = [.rel] ∨ ∃ condition, v.operands = [.cond condition, .rel]

theorem lower_jump : Text.lower "jr" = "jr" := by decide

theorem table_jumps : ∀ entry ∈ instructionTable, entry.1 = "jr" → ∀ v ∈ entry.2,
    v.IsJump ∧ v.lead = none ∧ v.trail = none := by
  have htable : (instructionTable.all fun entry => entry.1 != "jr" || entry.2.all fun v =>
      (v.operands == [.rel] || conditions.any fun c => v.operands == [.cond c.2, .rel]) &&
        v.lead == none && v.trail == none) = true := by
    decide +kernel
  intro entry hentry hword v hv
  simp only [List.all_eq_true, Bool.or_eq_true, Bool.and_eq_true, beq_iff_eq, bne_iff_ne,
    List.any_eq_true] at htable
  obtain ⟨⟨hoperands, hlead⟩, htrail⟩ :=
    (htable entry hentry).resolve_left (not_not_intro hword) v hv
  refine ⟨hoperands.imp_right ?_, hlead, htrail⟩
  rintro ⟨⟨_, condition⟩, -, hcondition⟩
  exact ⟨condition, hcondition⟩

namespace Scope

variable {sc : Scope}

/-- Trying a variant of a jump draws no random numbers and reports nothing. -/
theorem fitAll_of_isJump (sc : Scope) {v : Variant} (h : v.IsJump) (args : List Expr) :
    ∃ b, sc.fitAll v.operands args = pure b := by
  have htarget : ∀ es, ∃ b, sc.fitAll [.rel] es = pure b := by
    intro es
    cases es with
    | nil => exact ⟨false, rfl⟩
    | cons e es =>
      show ∃ b, (if e.isFree = true then sc.fitAll [] es else pure false) = pure b
      split
      · cases es with
        | nil => exact ⟨true, rfl⟩
        | cons e' es => exact ⟨false, rfl⟩
      · exact ⟨false, rfl⟩
  obtain h | ⟨condition, h⟩ := h
  · rw [h]
    exact htarget args
  · rw [h]
    cases args with
    | nil => exact ⟨false, rfl⟩
    | cons e es =>
      show ∃ b, (if (e.word? == some condition.name) = true then sc.fitAll [.rel] es
        else pure false) = pure b
      split
      · exact htarget es
      · exact ⟨false, rfl⟩

theorem firstFit_of_isJump (args : List Expr) (vs : List Variant) :
    (∀ v ∈ vs, v.IsJump) → ∃ v?, sc.firstFit args vs = pure v? := by
  induction vs with
  | nil => exact fun _ => ⟨none, rfl⟩
  | cons v vs ih =>
    intro h
    rw [List.forall_mem_cons] at h
    obtain ⟨b, hfit⟩ := fitAll_of_isJump sc h.1 args
    unfold firstFit
    split
    · cases b with
      | true => exact ⟨some v, by rw [hfit]; rfl⟩
      | false =>
        obtain ⟨v?, hrest⟩ := ih h.2
        exact ⟨v?, by rw [hfit, ← hrest]; rfl⟩
    · exact ih h.2

theorem selectVariant_jump (sc : Scope) (args : List Expr) :
    ∃ v?, sc.selectVariant "jr" args = pure v? := by
  unfold selectVariant
  cases hv : variants? (Text.lower "jr") with
  | none => exact ⟨none, rfl⟩
  | some variants =>
    apply firstFit_of_isJump
    intro v hmem
    have hentry := Table.mem_entries_of_get? (t := ⟨instructionTable⟩) hv
    exact (table_jumps _ hentry lower_jump v hmem).1

/-- As many operands fit as there are patterns. -/
theorem length_of_fitAll (ps : List Pattern) : ∀ (es : List Expr) (r : Random),
    (sc.fitAll ps es r).value = true → es.length = ps.length := by
  induction ps with
  | nil =>
    intro es r h
    cases es with
    | nil => rfl
    | cons e es => simp [fitAll] at h
  | cons p ps ih =>
    intro es r h
    cases es with
    | nil => simp [fitAll] at h
    | cons e es =>
      simp only [fitAll, Act.bind_apply] at h
      split at h
      · rw [List.length_cons, List.length_cons, ih es _ h]
      · simp at h

/-- The code of a jump is the byte of its last operand: a condition leaves nothing. -/
theorem operandCodes_of_isJump (sc : Scope) {v : Variant} (h : v.IsJump) {args : List Expr}
    (hlength : args.length = v.operands.length) (offset : Nat) :
    ∃ e, args.getLast? = some e ∧ sc.operandCodes offset v.operands args = (do
      let byte ← sc.jumpOperand offset e
      return { bytes := [byte] }) := by
  obtain h | ⟨condition, h⟩ := h
  · rw [h] at hlength ⊢
    obtain ⟨e, rfl⟩ := List.length_eq_one_iff.1 hlength
    refine ⟨e, rfl, ?_⟩
    funext s
    simp [operandCodes, operandCode]
  · rw [h] at hlength ⊢
    obtain ⟨e, e', rfl⟩ := List.length_eq_two.1 hlength
    refine ⟨e', rfl, ?_⟩
    funext s
    simp [operandCodes, operandCode]

/-- An instruction `jr` is its opcode and the byte of its last operand, which lies one byte behind
the start of the instruction. Nothing else in it can overflow. -/
theorem encode_jump {word : Token} (hword : Text.lower word.text = "jr") {args : List Expr}
    {size : Nat} (hsize : sc.state.offset? = some size) {s : Emission} {bytes : List UInt8}
    (h : (sc.encode word args s).value = some bytes) :
    ∃ opcode e, args.getLast? = some e ∧
      bytes = [opcode, (sc.jumpOperand (size + 1) e s).value] ∧
      (sc.encode word args s).reports = (sc.jumpOperand (size + 1) e s).reports ∧
      (sc.encode word args s).state = (sc.jumpOperand (size + 1) e s).state := by
  obtain ⟨v?, hselect⟩ := selectVariant_jump sc args
  cases v? with
  | none => simp [encode, hword, hselect, Act.drawing] at h
  | some v =>
    have hvalue : (sc.selectVariant "jr" args s.linkage.random).value = some v := by
      rw [hselect]
      rfl
    obtain ⟨⟨variants, hentry, hmem⟩, r, hfitAll⟩ := selectVariant_some hvalue
    obtain ⟨hjump, hlead, htrail⟩ := table_jumps _ hentry lower_jump v hmem
    obtain ⟨e, he, hcode⟩ :=
      operandCodes_of_isJump sc hjump (length_of_fitAll _ _ _ hfitAll) (size + 1)
    have hhalt : ("jr" == "halt") = false := by decide
    simp only [encode, hword, hselect, hsize, hlead, htrail, hhalt, Act.drawing, Act.bind_apply,
      Act.linking_apply, Act.evaluating_apply, Act.pure_apply, Act.checked_apply,
      Checked.overflowed_byteSum_zero, Bool.or_false, Option.getD_some, Option.toList_none,
      List.length_nil, Nat.add_zero, hcode, Option.some.injEq] at h ⊢
    refine ⟨_, e, he, h.symm, ?_, rfl⟩
    simp

/-! ## Main statement -/

/-- Distances of relative jumps are computed as if on whole numbers. In a section of fewer than
`2 ^ 16` bytes, an instruction `jr` overflows exactly if one of the two subtractions exceeds 32 bits,
and they do so only if the target is known and its exact distance lies below `-2 ^ 31`. An
instruction whose target is known ends in the diagnostic exactly if the exact distance is out of
reach, and its byte is that of the exact distance; where the subtractions stay within 32 bits, the
diagnostic names the exact distance. -/
theorem encode_jump_distance (sc : Scope) (word : Token) (hword : Text.lower word.text = "jr")
    (args : List Expr) (size : Nat) (hsize : sc.state.offset? = some size) (hlt : size < 2 ^ 16)
    (s : Emission) (bytes : List UInt8) (h : (sc.encode word args s).value = some bytes) :
    ∃ opcode e, args.getLast? = some e ∧
      ((sc.encode word args s).state.overflowed = true ↔
        s.overflowed = true ∨ ¬ sc.SubtractsWithin (size + 1) e s.linkage.random) ∧
      ∀ target, (sc.exactTarget? e s.linkage.random).value = some target →
        let distance := target - (size + 2)
        bytes = [opcode, (Int32.ofInt distance).toUInt32.toUInt8] ∧
        (sc.encode word args s).reports = (sc.exactTarget? e s.linkage.random).reports ++
          jumpReports distance e.token ∧
        (sc.SubtractsWithin (size + 1) e s.linkage.random ↔ -2 ^ 31 ≤ distance) ∧
        (sc.SubtractsWithin (size + 1) e s.linkage.random →
          (Int32.ofInt distance).toInt = distance) := by
  obtain ⟨opcode, e, he, rfl, hreports, hstate⟩ := encode_jump hword hsize h
  have hoffset : size + 1 ≤ 2 ^ 16 := by omega
  refine ⟨opcode, e, he, by rw [hstate, overflowed_jumpOperand hoffset], fun target htarget => ?_⟩
  have hnext : target - (size + 2) = target - ((size + 1 : Nat) + 1) := by omega
  obtain ⟨hbyte, hmade⟩ := jumpOperand_of_exactTarget? hoffset htarget
  obtain ⟨-, hhi⟩ := exactTarget?_bounds htarget
  simp only [hnext]
  refine ⟨by rw [hbyte], by rw [hreports, hmade], subtractsWithin_iff hoffset htarget, ?_⟩
  intro hwithin
  exact Checked.toInt_ofInt (hwithin target htarget).2

/-- A section that is fixed at `0x100`. -/
def fixedScope : Scope :=
  ((Assembler.new {} (.memory {})).runAll
    [.text "a.asm" " SECTION \"a\",ROM0[$100]\n"]).state.scope

theorem encode_jump_distance_fixedScope :
    let outcome := fixedScope.encode (sampleToken "jr") [.number (sampleToken "$1000")]
      fixedScope.state.emission
    outcome.reports = [.evaluation (.jumpTooFar 3838) (sampleToken "$1000")] ∧
      outcome.state.overflowed = false := by
  obtain ⟨opcode, e, he, hoverflow, hjump⟩ := encode_jump_distance fixedScope (sampleToken "jr")
    lower_jump [.number (sampleToken "$1000")] 0 (by decide +kernel) (by decide)
    fixedScope.state.emission [0x18, 0xFE] (by decide +kernel)
  obtain rfl : .number (sampleToken "$1000") = e := Option.some.inj he
  have htarget : (fixedScope.exactTarget? (.number (sampleToken "$1000"))
      fixedScope.state.emission.linkage.random).value = some 0xF00 := by
    decide +kernel
  have hquiet : (fixedScope.exactTarget? (.number (sampleToken "$1000"))
      fixedScope.state.emission.linkage.random).reports.isEmpty = true := by
    decide +kernel
  have hfar : jumpReports 3838 (sampleToken "$1000") =
      [.evaluation (.jumpTooFar 3838) (sampleToken "$1000")] := by
    rw [jumpReports, if_neg (by decide)]
    rfl
  have hsteady : fixedScope.state.emission.overflowed = false := by decide +kernel
  obtain ⟨-, hreports, hwithin, -⟩ := hjump 0xF00 htarget
  norm_num at hreports hwithin
  constructor
  · rw [hreports, List.isEmpty_iff.1 hquiet]
    exact hfar
  · rw [← Bool.not_eq_true, hoverflow, hsteady]
    simpa using hwithin

/-! ## Below 32 bits -/

/-- A relative jump can end an assembly without a result. The lowest address lies too far below a
section that is fixed anywhere but at zero. -/
theorem lowest_jump_overflows :
    ¬ ∀ (config : Config) (files : FileStore) (sources : List Assembler.Source) (size line : Nat)
        (operand : String),
      let asm := (Assembler.new config files).runAll sources
      asm.finish?.isSome = true → asm.state.offset? = some size → size < 2 ^ 16 →
        (asm.assembleLine line (" jr " ++ operand)).finish?.isSome = true := by
  intro h
  have hresult := h {} (.memory {}) [.text "a.asm" " SECTION \"a\",ROM0[$100]\n"] 0 1 "$80000000"
    (by decide +kernel) (by decide +kernel) (by decide)
  exact absurd hresult (by decide +kernel)

end Scope

end Sm83Asm
