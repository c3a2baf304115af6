import Mathlib
import Sm83Asm.Proofs.Link.Jump

set_option autoImplicit false

/-!
# Machine code is self-delimiting

The first byte of an instruction tells how long the instruction is, so bytes that are the codes of
instructions one after the other can be cut into these codes again without knowing anything else.
Bit numbers and restart addresses are folded into the opcode, the second page has a lead byte,
`stop` has a trailing byte, and `halt` has one if the options ask for it; none of this makes two
instructions with one first byte differ in length.

Main statement: the codes of a sequence of instructions are found again by cutting at the lengths
that the first bytes tell, and there is no other way to cut (`segments_encodings`). What an operand
adds is bounded by its pattern (`operandCode_of_fits`), which leaves a check of the instruction
table for the values of the addends (`table_lengths`).
-/

namespace Sm83Asm

/-! ## Lengths and cutting -/

/-- How many bytes an instruction has that begins with a byte. -/
def codeLength (haltNop : Bool) (first : UInt8) : Nat :=
  if first = 0x76 then if haltNop then 2 else 1
  -- Loads, jumps and calls with an address, and loads of a register pair.
  else if first ∈ [0x01, 0x11, 0x21, 0x31, 0x08, 0xC2, 0xC3, 0xC4, 0xCA, 0xCC, 0xCD, 0xD2, 0xD4,
      0xDA, 0xDC, 0xEA, 0xFA] then 3
  -- Operations with a byte, relative jumps, `stop`, the second page and the top page.
  else if first ∈ [0x06, 0x0E, 0x16, 0x1E, 0x26, 0x2E, 0x36, 0x3E, 0x10, 0x18, 0x20, 0x28, 0x30,
      0x38, 0xC6, 0xCE, 0xD6, 0xDE, 0xE6, 0xEE, 0xF6, 0xFE, 0xCB, 0xE0, 0xF0, 0xE8, 0xF8] then 2
  else 1

/-- Bytes cut into pieces, each as long as its first byte tells. -/
def segments (length : UInt8 → Nat) : List UInt8 → List (List UInt8)
  | [] => []
  | first :: rest =>
    (first :: rest.take (length first - 1)) :: segments length (rest.drop (length first - 1))
termination_by bytes => bytes.length
decreasing_by
  rw [List.length_drop, List.length_cons]
  omega

/-- Bytes that are not empty and as long as the first of them tells. -/
def Delimited (length : UInt8 → Nat) (code : List UInt8) : Prop :=
  ∃ first rest, code = first :: rest ∧ code.length = length first

/-- The bytes of some instruction under some options, whatever else is known where it stands, with
operands that draw no random numbers. Whether reports are made or patches are left does not
matter. -/
def IsEncoding (options : Options) (code : List UInt8) : Prop :=
  ∃ (sc : Scope) (word : Token) (args : List Expr) (s : Emission), sc.state.options = options ∧
    Expr.allSteady args = true ∧ (sc.encode word args s).value = some code

variable {length : UInt8 → Nat}

theorem segments_append {code : List UInt8} (h : Delimited length code) (rest : List UInt8) :
    segments length (code ++ rest) = code :: segments length rest := by
  obtain ⟨first, tail, rfl, hlength⟩ := h
  have htail : length first - 1 = tail.length := by
    simp only [List.length_cons] at hlength
    omega
  rw [List.cons_append, segments, htail, List.take_left, List.drop_left]

/-- Cutting undoes putting pieces together. -/
theorem segments_flatten (codes : List (List UInt8)) (h : ∀ code ∈ codes, Delimited length code) :
    segments length codes.flatten = codes := by
  induction codes with
  | nil => rw [List.flatten_nil, segments]
  | cons code codes ih =>
    rw [List.flatten_cons, segments_append (h code List.mem_cons_self)]
    rw [ih fun other hmem => h other (List.mem_cons_of_mem code hmem)]

theorem Delimited.eq_of_prefix {a b : List UInt8} (ha : Delimited length a)
    (hb : Delimited length b) (h : a <+: b) : a = b := by
  apply h.eq_of_length
  obtain ⟨first, rest, rfl, hfirst⟩ := ha
  obtain ⟨tail, rfl⟩ := h
  obtain ⟨other, more, hmore, hother⟩ := hb
  obtain ⟨rfl, -⟩ := List.cons.inj hmore
  exact hfirst.trans hother.symm

/-! ## What an operand adds -/

/-- How many bytes an operand has. -/
def Pattern.width : Pattern → Nat
  | .reg _ | .cond _ | .ind _ | .u3 | .vector => 0
  | .n8 | .e8 | .rel | .ldhN8 | .highN8 | .spE8 => 1
  | .n16 | .indN16 => 2

/-- What an operand may add to the opcode. -/
def Pattern.addends : Pattern → List UInt8
  | .u3 | .vector => [0x00, 0x08, 0x10, 0x18, 0x20, 0x28, 0x30, 0x38]
  | _ => [0x00]

/-- What operands may add to the opcode together. -/
def addendsOf : List Pattern → List UInt8
  | [] => [0x00]
  | p :: ps => p.addends.flatMap fun a => (addendsOf ps).map (a + ·)

/-- The code of an operand is what its pattern lets expect. -/
structure OperandCode.Meets (code : OperandCode) (addends : List UInt8) (width : Nat) : Prop where
  addend : code.addend ∈ addends
  length : code.bytes.length = width

/-- A number between zero and a bound is one of the numbers up to the bound. -/
theorem exists_ofNat_of_range {n : Int32} {hi : Nat} (hlt : hi < 2 ^ 31) (h0 : 0 ≤ n)
    (h1 : n ≤ Int32.ofNat hi) : ∃ k ≤ hi, n = Int32.ofNat k := by
  have hlo : (0 : Int) ≤ n.toInt := Int32.le_iff_toInt_le.1 h0
  have hhi : n.toInt ≤ hi := by
    rw [← Int32.toInt_ofNat_of_lt hlt]
    exact Int32.le_iff_toInt_le.1 h1
  obtain ⟨k, hk⟩ := Int.eq_ofNat_of_zero_le hlo
  refine ⟨k, by omega, ?_⟩
  apply Int32.toInt_inj.1
  rw [hk, Int32.toInt_ofNat_of_lt (by omega)]

theorem bitNumber_addend {n : Int32} (h : (0 ≤ n && n ≤ 7) = true) :
    n.toUInt32.toUInt8 * 8 ∈ Pattern.u3.addends := by
  simp only [Bool.and_eq_true, decide_eq_true_eq] at h
  obtain ⟨k, hk, rfl⟩ := exists_ofNat_of_range (by decide : 7 < 2 ^ 31) h.1 h.2
  clear h
  revert k
  decide

theorem vector_addend {n : Int32} (h : (0 ≤ n && n ≤ 0x38 && n % 8 == 0) = true) :
    n.toUInt32.toUInt8 ∈ Pattern.vector.addends := by
  simp only [Bool.and_eq_true, decide_eq_true_eq, beq_iff_eq] at h
  obtain ⟨⟨h0, h1⟩, h8⟩ := h
  obtain ⟨k, hk, rfl⟩ := exists_ofNat_of_range (by decide : 0x38 < 2 ^ 31) h0 h1
  clear h0 h1
  revert k
  decide +kernel

namespace Scope

variable {sc : Scope}

/-- A steady constant that passed a test has a value that passes it, whenever it is computed. -/
theorem number_of_constantIn {test : Int32 → Bool} {e : Expr} (hs : e.isSteady = true)
    {r : Random} (h : (sc.constantIn test e r).value = true) (r' : Random) :
    test (sc.number e r').value = true := by
  unfold constantIn constant? at h
  by_cases hc : sc.isConstant e = true
  · rw [if_pos hc] at h
    rw [((settled_number sc hs).apply_eq r' r).1]
    simpa using h
  · rw [if_neg hc] at h
    simp at h

theorem length_wordOperand (offset : Nat) (e : Expr) (s : Emission) :
    (sc.wordOperand offset e s).value.length = 2 := by
  simp only [wordOperand, Act.bind_apply]
  split
  · rfl
  · rfl

/-- An operand that fits a pattern has as many bytes as the pattern says and adds one of its
addends to the opcode. -/
theorem operandCode_of_fits {p : Pattern} {e : Expr} (hs : e.isSteady = true) {r : Random}
    (h : (sc.fits p e r).value = true) (offset : Nat) (s : Emission) :
    (sc.operandCode offset p e s).value.Meets p.addends p.width := by
  cases p with
  | reg _ | cond _ | ind _ => exact ⟨List.mem_singleton_self _, rfl⟩
  | n8 | e8 | rel => exact ⟨List.mem_singleton_self _, rfl⟩
  | n16 => exact ⟨List.mem_singleton_self _, length_wordOperand offset e s⟩
  | u3 =>
    -- The value that was tested and the value that is added are the same.
    simp only [fits] at h
    split at h
    · exact ⟨bitNumber_addend (number_of_constantIn hs h _), rfl⟩
    · simp at h
  | vector =>
    simp only [fits] at h
    split at h
    · exact ⟨vector_addend (number_of_constantIn hs h _), rfl⟩
    · simp at h
  | indN16 =>
    cases e with
    | bracket t inner => exact ⟨List.mem_singleton_self _, length_wordOperand offset inner s⟩
    | _ => simp [fits, Expr.bracketed?] at h
  | ldhN8 | highN8 =>
    cases e with
    | bracket t inner => exact ⟨List.mem_singleton_self _, rfl⟩
    | _ => simp [fits, Expr.bracketed?] at h
  | spE8 =>
    cases e with
    | binary op t l r => exact ⟨List.mem_singleton_self _, rfl⟩
    | _ => simp [fits] at h

theorem operandCodes_of_fitAll (ps : List Pattern) : ∀ (es : List Expr) (r : Random),
    Expr.allSteady es = true → (sc.fitAll ps es r).value = true → ∀ (offset : Nat) (s : Emission),
      (sc.operandCodes offset ps es s).value.Meets (addendsOf ps) (ps.map Pattern.width).sum := by
  induction ps with
  | nil =>
    intro es r _ _ offset s
    exact ⟨List.mem_singleton_self _, rfl⟩
  | cons p ps ih =>
    intro es r hs h offset s
    cases es with
    | nil => simp [fitAll] at h
    | cons e es =>
      simp only [Expr.allSteady, Bool.and_eq_true] at hs
      simp only [fitAll, Act.bind_apply] at h
      split at h
      · rename_i hfits
        have hcode := operandCode_of_fits hs.1 hfits offset s
        have hrest := fun behind => ih es _ hs.2 h behind (sc.operandCode offset p e s).state
        constructor
        · apply List.mem_flatMap.2
          exact ⟨_, hcode.addend, List.mem_map_of_mem (hrest _).addend⟩
        · simp only [operandCodes, Act.bind_apply, Act.pure_apply, List.length_append,
            List.map_cons, List.sum_cons, hcode.length, (hrest _).length]
      · simp at h

/-! ## The variant of an instruction -/

theorem firstFit_some {args : List Expr} (vs : List Variant) : ∀ (r : Random) (v : Variant),
    (sc.firstFit args vs r).value = some v →
      v ∈ vs ∧ ∃ r', (sc.fitAll v.operands args r').value = true := by
  induction vs with
  | nil =>
    intro r v h
    simp [firstFit] at h
  | cons w vs ih =>
    intro r v h
    unfold firstFit at h
    split at h
    · simp only [Act.bind_apply] at h
      split at h
      · rename_i hfits
        obtain rfl : w = v := by simpa using h
        exact ⟨List.mem_cons_self, r, hfits⟩
      · obtain ⟨hmem, hfits⟩ := ih _ v h
        exact ⟨List.mem_cons_of_mem w hmem, hfits⟩
    · obtain ⟨hmem, hfits⟩ := ih r v h
      exact ⟨List.mem_cons_of_mem w hmem, hfits⟩

theorem selectVariant_some {mnemonic : String} {args : List Expr} {r : Random} {v : Variant}
    (h : (sc.selectVariant mnemonic args r).value = some v) :
    (∃ variants, (Text.lower mnemonic, variants) ∈ instructionTable ∧ v ∈ variants) ∧
      ∃ r', (sc.fitAll v.operands args r').value = true := by
  unfold selectVariant at h
  cases hv : variants? (Text.lower mnemonic) with
  | none => simp [hv] at h
  | some variants =>
    rw [hv] at h
    obtain ⟨hmem, hfits⟩ := firstFit_some variants r v h
    exact ⟨⟨variants, Table.mem_entries_of_get? (t := ⟨instructionTable⟩) hv, hmem⟩, hfits⟩

end Scope

/-! ## The instruction table -/

/-- How many bytes a variant of a mnemonic has. -/
def Variant.size (v : Variant) (mnemonic : String) (haltNop : Bool) : Nat :=
  v.lead.toList.length + 1 + (v.operands.map Pattern.width).sum + v.trail.toList.length +
    if mnemonic == "halt" && haltNop then 1 else 0

/-- Every variant is as long as its first byte tells, whatever is added to its opcode. -/
theorem table_lengths : ∀ haltNop : Bool, ∀ entry ∈ instructionTable, ∀ v ∈ entry.2,
    ∀ addend ∈ addendsOf v.operands,
      v.size entry.1 haltNop = codeLength haltNop (v.lead.getD (v.opcode + addend)) := by
  have htable : ([false, true].all fun haltNop => instructionTable.all fun entry =>
      entry.2.all fun v => (addendsOf v.operands).all fun addend =>
        v.size entry.1 haltNop == codeLength haltNop (v.lead.getD (v.opcode + addend))) = true := by
    decide +kernel
  intro haltNop
  simp only [List.all_eq_true, beq_iff_eq] at htable
  exact htable haltNop (by cases haltNop <;> simp)

/-- The bytes of a variant with the code of its operands. -/
def Variant.bytes (v : Variant) (mnemonic : String) (haltNop : Bool) (code : OperandCode) :
    List UInt8 :=
  v.lead.toList ++ (v.opcode + code.addend) :: code.bytes ++ v.trail.toList ++
    if mnemonic == "halt" && haltNop then [0x00] else []

theorem Variant.length_bytes (v : Variant) (mnemonic : String) (haltNop : Bool)
    {code : OperandCode} (h : code.bytes.length = (v.operands.map Pattern.width).sum) :
    (v.bytes mnemonic haltNop code).length = v.size mnemonic haltNop := by
  unfold Variant.bytes Variant.size
  simp only [List.length_append, List.length_cons, h, apply_ite List.length, List.length_nil,
    Nat.zero_add]
  omega

/-- The first byte is the lead byte if there is one, and else the opcode. -/
theorem Variant.exists_bytes_eq_cons (v : Variant) (mnemonic : String) (haltNop : Bool)
    (code : OperandCode) :
    ∃ rest, v.bytes mnemonic haltNop code = v.lead.getD (v.opcode + code.addend) :: rest := by
  unfold Variant.bytes
  cases v.lead with
  | none => exact ⟨_, rfl⟩
  | some lead => exact ⟨_, rfl⟩

theorem lower_lower (s : String) : Text.lower (Text.lower s) = Text.lower s := by
  simp only [Text.lower, String.toList_ofList, List.map_map, Function.comp_def,
    Char.toLower_toLower_eq_toLower]

/-- An instruction is encoded by a variant of its mnemonic, with operands that meet the patterns of
the variant. -/
theorem exists_variant_of_encode {sc : Scope} {word : Token} {args : List Expr}
    (hs : Expr.allSteady args = true) {s : Emission} {bytes : List UInt8}
    (h : (sc.encode word args s).value = some bytes) :
    ∃ mnemonic variants v code, (mnemonic, variants) ∈ instructionTable ∧ v ∈ variants ∧
      code.Meets (addendsOf v.operands) (v.operands.map Pattern.width).sum ∧
      bytes = v.bytes mnemonic sc.state.options.haltNop code := by
  simp only [Scope.encode, Act.drawing, Act.bind_apply, Act.linking_apply,
    Act.evaluating_apply] at h
  cases hv : (sc.selectVariant (Text.lower word.text) args s.linkage.random).value with
  | none => simp [hv] at h
  | some v =>
    obtain ⟨⟨variants, hentry, hmem⟩, r, hfits⟩ := Scope.selectVariant_some hv
    rw [lower_lower] at hentry
    simp only [hv, Act.bind_apply, Act.pure_apply, Option.some.injEq] at h
    have hcode := Scope.operandCodes_of_fitAll v.operands args r hs hfits
    exact ⟨_, variants, v, _, hentry, hmem, hcode _ _, h.symm⟩

theorem IsEncoding.delimited {options : Options} {bytes : List UInt8}
    (h : IsEncoding options bytes) : Delimited (codeLength options.haltNop) bytes := by
  obtain ⟨sc, word, args, s, rfl, hs, hencode⟩ := h
  obtain ⟨mnemonic, variants, v, code, hentry, hmem, hmeets, rfl⟩ :=
    exists_variant_of_encode hs hencode
  obtain ⟨rest, hrest⟩ := v.exists_bytes_eq_cons mnemonic sc.state.options.haltNop code
  refine ⟨_, rest, hrest, ?_⟩
  rw [v.length_bytes mnemonic sc.state.options.haltNop hmeets.length]
  exact table_lengths sc.state.options.haltNop _ hentry v hmem code.addend hmeets.addend

/-! ## Main statement -/

/-- Machine code is self-delimiting. Under fixed options the first byte of an instruction tells its
length. Cutting the codes of a sequence of instructions at these lengths gives the codes back, they
are the only codes of instructions with these bytes, and no code of an instruction is a proper
beginning of another. -/
theorem segments_encodings (options : Options) :
    (∀ code, IsEncoding options code → Delimited (codeLength options.haltNop) code) ∧
    (∀ codes : List (List UInt8), (∀ code ∈ codes, IsEncoding options code) →
      segments (codeLength options.haltNop) codes.flatten = codes ∧
      ∀ others : List (List UInt8), (∀ code ∈ others, IsEncoding options code) →
        others.flatten = codes.flatten → others = codes) ∧
    ∀ a b, IsEncoding options a → IsEncoding options b → a <+: b → a = b := by
  refine ⟨fun _ h => h.delimited, ?_, fun a b ha hb => ha.delimited.eq_of_prefix hb.delimited⟩
  intro codes hcodes
  have hcut := segments_flatten codes fun code hmem => (hcodes code hmem).delimited
  refine ⟨hcut, ?_⟩
  intro others hothers hsame
  rw [← hcut, ← hsame, segments_flatten others fun code hmem => (hothers code hmem).delimited]

/-- The codes of `halt` with its no-op, `RST $38`, `bit 7, [hl]`, `stop` with its trailing byte and
`ld a, [far]`, whose address is left to the linker. -/
def sampleCodes : List (List UInt8) :=
  [[0x76, 0x00], [0xFF], [0xCB, 0x7E], [0x10, 0x00], [0xFA, 0x00, 0x00]]

theorem isEncoding_sample {code : List UInt8} (word : String) (args : List Expr)
    (hs : Expr.allSteady args = true)
    (h : (Scope.sampleScope.encode (Scope.sampleToken word) args ⟨⟨.ofSeed 0, {}⟩, #[], false⟩).value =
      some code) : IsEncoding {} code :=
  ⟨Scope.sampleScope, Scope.sampleToken word, args, _, rfl, hs, h⟩

theorem isEncoding_sampleCodes : ∀ code ∈ sampleCodes, IsEncoding {} code := by
  simp only [sampleCodes, List.forall_mem_cons]
  refine ⟨?_, ?_, ?_, ?_, ?_, ?_⟩
  · exact isEncoding_sample "halt" [] rfl rfl
  · exact isEncoding_sample "RST" [.number (Scope.sampleToken "$38")] rfl rfl
  · exact isEncoding_sample "bit" [.number (Scope.sampleToken "7"),
      .bracket (Scope.sampleToken "[") (.identifier (Scope.sampleToken "hl"))] rfl rfl
  · exact isEncoding_sample "stop" [] rfl rfl
  · exact isEncoding_sample "ld" [.identifier (Scope.sampleToken "a"),
      .bracket (Scope.sampleToken "[") (.identifier (Scope.sampleToken "far"))] rfl rfl
  · simp

theorem segments_sampleCodes :
    (∀ code ∈ sampleCodes, IsEncoding {} code) ∧
      segments (codeLength true) [0x76, 0x00, 0xFF, 0xCB, 0x7E, 0x10, 0x00, 0xFA, 0x00, 0x00] =
        sampleCodes :=
  ⟨isEncoding_sampleCodes, ((segments_encodings {}).2.1 sampleCodes isEncoding_sampleCodes).1⟩

end Sm83Asm
