import Mathlib.Algebra.Order.Ring.Int
import Sm83Asm.Execute.Data
import Sm83Asm.Instruction.Encode
import Sm83Asm.Proofs.Act

set_option autoImplicit false

/-!
# Where arithmetic overflows

Checked arithmetic notes an overflow exactly if the result on whole numbers does not fit, and
otherwise gives that result. A note is never taken back, and only three kinds of operand can make
one: bit numbers and restart addresses, which are added to the opcode, and the targets of relative
jumps. Data and all other operands make none.

Main statement: an instruction that overflows has an operand of one of these kinds
(`computes_of_overflowed`).
-/

namespace Sm83Asm

/-- The whole numbers that have 32 bits. -/
def HasBits32 (n : Int) : Prop := -2 ^ 31 ≤ n ∧ n < 2 ^ 31

instance (n : Int) : Decidable (HasBits32 n) := inferInstanceAs (Decidable (_ ∧ _))

theorem Int32.hasBits32 (n : Int32) : HasBits32 n.toInt := ⟨n.le_toInt, n.toInt_lt⟩

/-! ## Checked arithmetic -/

namespace Checked

@[simp] theorem value_exact {α : Type} (a : α) : (exact a).value = a := rfl

@[simp] theorem value_sum (a b : Int32) : (sum a b).value = a + b := rfl

@[simp] theorem value_difference (a b : Int32) : (difference a b).value = a - b := rfl

@[simp] theorem value_byteSum (a b : UInt8) : (byteSum a b).value = a + b := rfl

@[simp] theorem value_byteProduct (a b : UInt8) : (byteProduct a b).value = a * b := rfl

/-- What arithmetic of 32 bits gives for a result on whole numbers. -/
def ofInt (n : Int) : Checked Int32 := ⟨Int32.ofInt n, decide (¬ HasBits32 n)⟩

/-- A number overflows exactly if it has too many bits. -/
theorem overflowed_ofInt (n : Int) : (ofInt n).overflowed = true ↔ ¬ HasBits32 n := by
  simp [ofInt]

/-- A number that does not overflow is kept. -/
theorem toInt_ofInt {n : Int} (h : HasBits32 n) : (ofInt n).value.toInt = n := by
  show (Int32.ofInt n).toInt = n
  rw [Int32.toInt_ofInt]
  exact Int.bmod_eq_of_le h.1 h.2

/-- A number of 32 bits is itself as a result. -/
theorem exact_eq_ofInt (a : Int32) : exact a = ofInt a.toInt := by
  simp [exact, ofInt, Int32.hasBits32 a]

/-- The flag of a sum is set exactly if the sum on whole numbers has too many bits. -/
theorem sum_eq_ofInt (a b : Int32) : sum a b = ofInt (a.toInt + b.toInt) := by
  have hflag : a.toBitVec.saddOverflow b.toBitVec = decide (¬ HasBits32 (a.toInt + b.toInt)) := by
    rw [BitVec.saddOverflow, ← Bool.decide_or]
    apply decide_eq_decide.2
    rw [HasBits32]
    show a.toInt + b.toInt ≥ 2 ^ 31 ∨ a.toInt + b.toInt < -2 ^ 31 ↔ _
    omega
  simp [sum, ofInt, hflag, Int32.ofInt_add]

/-- The flag of a difference is set exactly if the one on whole numbers has too many bits. -/
theorem difference_eq_ofInt (a b : Int32) : difference a b = ofInt (a.toInt - b.toInt) := by
  have hflag : a.toBitVec.ssubOverflow b.toBitVec = decide (¬ HasBits32 (a.toInt - b.toInt)) := by
    rw [BitVec.ssubOverflow, ← Bool.decide_or]
    apply decide_eq_decide.2
    rw [HasBits32]
    show a.toInt - b.toInt ≥ 2 ^ 31 ∨ a.toInt - b.toInt < -2 ^ 31 ↔ _
    omega
  simp [difference, ofInt, hflag, Int32.ofInt_sub]

/-- A sum of bytes overflows exactly if it is no byte. -/
theorem overflowed_byteSum (a b : UInt8) :
    (byteSum a b).overflowed = false ↔ a.toNat + b.toNat < 256 := by
  simp only [byteSum, BitVec.uaddOverflow, decide_eq_false_iff_not]
  show ¬ a.toNat + b.toNat ≥ 2 ^ 8 ↔ _
  omega

/-- Adding nothing to a byte does not overflow. -/
theorem overflowed_byteSum_zero (a : UInt8) : (byteSum a 0).overflowed = false := by
  rw [overflowed_byteSum]
  simpa using a.toNat_lt

/-- A product of bytes overflows exactly if it is no byte. -/
theorem overflowed_byteProduct (a b : UInt8) :
    (byteProduct a b).overflowed = false ↔ a.toNat * b.toNat < 256 := by
  simp only [byteProduct, BitVec.umulOverflow, decide_eq_false_iff_not]
  show ¬ a.toNat * b.toNat ≥ 2 ^ 8 ↔ _
  omega

end Checked

/-! ## Notes -/

namespace Act

variable {α β : Type} {b : Bool}

@[simp] theorem checked_apply (result : Checked α) (s : Emission) :
    checked result s =
      ⟨result.value, { s with overflowed := s.overflowed || result.overflowed }, []⟩ := rfl

/-- An action that leaves the note of an overflow as it is, when it is `b`. -/
def Keeps (b : Bool) (x : Act Emission α) : Prop :=
  ∀ s, s.overflowed = b → (x s).state.overflowed = b

theorem keeps_pure (a : α) : Keeps b (pure a : Act Emission α) := fun _ h => h

theorem keeps_fault (cause : EvaluationCause) (token : Token) :
    Keeps b (fault cause token : Act Emission Unit) := fun _ h => h

/-- Compiling and evaluating make no note. -/
theorem keeps_linking (x : Act Linkage α) : Keeps b (linking x) := fun _ h => h

/-- A note is kept by both of two actions. -/
theorem Keeps.bind {x : Act Emission α} {f : α → Act Emission β} (hx : Keeps b x)
    (hf : ∀ a, Keeps b (f a)) : Keeps b (x >>= f) := fun s h => hf _ _ (hx s h)

theorem Keeps.map {x : Act Emission α} (f : α → β) (hx : Keeps b x) : Keeps b (f <$> x) :=
  fun s h => hx s h

theorem keeps_ite {p : Prop} [Decidable p] {x y : Act Emission α} (hx : Keeps b x)
    (hy : Keeps b y) : Keeps b (if p then x else y) := by
  split
  · exact hx
  · exact hy

/-- Only a fault is reported where a condition fails, and the result is given all the same. -/
theorem faultUnless_apply {σ : Type} {c : Bool} (cause : EvaluationCause) (token : Token) (a : α)
    (s : σ) :
    (if (!c) = true then (do fault cause token; pure a) else pure a : Act σ α) s =
      ⟨a, s, if c then [] else [.evaluation cause token]⟩ := by
  cases c with
  | true => rfl
  | false => rfl

/-- Arithmetic that does not overflow keeps every note, and any arithmetic a note that is there. -/
theorem keeps_checked {result : Checked α} (h : result.overflowed = false ∨ b = true) :
    Keeps b (checked result) := by
  rintro s rfl
  rcases h with h | h
  · simp [h]
  · simp [h]

end Act

/-- Whether an operand that fits a pattern is computed with: it is added to the opcode, or it is the
target of a jump. -/
def Pattern.computes : Pattern → Bool
  | .u3 | .vector | .rel => true
  | _ => false

namespace Scope

open Act

variable (sc : Scope) {b : Bool}

/-! ## Data -/

/-- What is left to the linker is not computed here. -/
theorem keeps_deferWith (check : Link.Program) (kind : PatchKind) (offset : Nat) (e : Expr) :
    Keeps b (sc.deferWith check kind offset e) := by
  rw [deferWith]
  split
  · exact keeps_fault _ _
  · exact (keeps_linking _).bind fun program s h => h

/-- A value is evaluated, where numbers wrap around, or left to the linker. -/
theorem keeps_valueOrPatch (check : Link.Program) (kind : PatchKind) (offset : Nat)
    (expected : Expected) (e : Expr) :
    Keeps b (sc.valueOrPatch check kind offset expected e) := by
  rw [valueOrPatch]
  refine keeps_ite (keeps_linking _) (keeps_ite ?_ ?_)
  · exact (keeps_fault _ _).bind fun _ => keeps_pure _
  · exact (sc.keeps_deferWith check kind offset e).bind fun _ => keeps_pure _

theorem keeps_numberOrPatch (kind : PatchKind) (offset : Nat) (e : Expr) :
    Keeps b (sc.numberOrPatch kind offset e) :=
  (sc.keeps_valueOrPatch [] kind offset .number e).map Value.toNumber

/-- An item of data is cut to its width, which is no arithmetic. -/
theorem keeps_dataItem (keyword : Keyword) (offset : Nat) (e : Expr) :
    Keeps b (sc.dataItem keyword offset e) := by
  unfold dataItem
  dsimp only
  split
  · refine (keeps_valueOrPatch _ _ _ _ _ _).bind fun value => ?_
    cases value with
    | text s => exact keeps_pure _
    | number n => exact keeps_ite ((keeps_fault _ _).bind fun _ => keeps_pure _) (keeps_pure _)
  · exact (keeps_numberOrPatch _ _ _ _).bind fun n =>
      keeps_ite ((keeps_fault _ _).bind fun _ => keeps_pure _) (keeps_pure _)
  · exact (keeps_numberOrPatch _ _ _ _).bind fun n => keeps_pure _

/-- Data never overflows. -/
theorem keeps_dataItems (keyword : Keyword) (es : List Expr) (offset : Nat) :
    Keeps b (sc.dataItems keyword offset es) := by
  induction es generalizing offset with
  | nil => exact keeps_pure _
  | cons e es ih =>
    exact (sc.keeps_dataItem keyword offset e).bind fun bytes => (ih _).bind fun _ => keeps_pure _

/-! ## Instructions -/

/-- An operand of a byte is checked against its bounds, without arithmetic. -/
theorem keeps_byteOperand (lo hi : Int32) (offset : Nat) (e : Expr) :
    Keeps b (sc.byteOperand lo hi offset e) :=
  (sc.keeps_numberOrPatch .byte offset e).bind fun _ =>
    keeps_ite ((keeps_fault _ _).bind fun _ => keeps_pure _) (keeps_pure _)

theorem keeps_wordOperand (offset : Nat) (e : Expr) : Keeps b (sc.wordOperand offset e) :=
  (sc.keeps_numberOrPatch .word offset e).bind fun _ =>
    keeps_ite ((keeps_fault _ _).bind fun _ => keeps_pure _) (keeps_pure _)

theorem keeps_topPageOperand (offset : Nat) (e : Expr) :
    Keeps b (sc.topPageOperand offset e) := by
  refine (keeps_linking _).bind fun known => ?_
  cases known with
  | some n => exact keeps_pure _
  | none =>
    exact ((sc.keeps_valueOrPatch _ _ _ _ e).map Value.toNumber).bind fun _ => keeps_pure _

variable {sc} in
/-- The distance of a jump whose target is known is that from the byte behind the operand. All three
computations on the way may overflow. -/
theorem jumpOperand_of_jumpTarget? {offset : Nat} {e : Expr} {s : Emission}
    {target : Checked Int32} (h : (sc.jumpTarget? e s.linkage.random).value = some target) :
    let found := sc.jumpTarget? e s.linkage.random
    let next := Checked.sum (Int32.ofNat offset) 1
    let distance := Checked.difference target.value next.value
    sc.jumpOperand offset e s =
      ⟨distance.value.toUInt32.toUInt8,
        { s with
          linkage := { s.linkage with random := found.state }
          overflowed :=
            s.overflowed || next.overflowed || target.overflowed || distance.overflowed },
        found.reports ++ if -128 ≤ distance.value && distance.value ≤ 127 then []
          else [.evaluation (.jumpTooFar distance.value) e.token]⟩ := by
  intro found next distance
  have hreport := faultUnless_apply (c := -128 ≤ distance.value && distance.value ≤ 127)
    (.jumpTooFar distance.value) e.token distance.value.toUInt32.toUInt8
    { s with
      linkage := { s.linkage with random := found.state }
      overflowed := s.overflowed || next.overflowed || target.overflowed || distance.overflowed }
  simp only [jumpOperand, drawing, bind_apply, linking_apply, evaluating_apply, checked_apply, h]
  exact congrArg (fun x => Outcome.mk x.value x.state (found.reports ++ x.reports)) hreport

/-- A bit number overflows exactly if its low byte is 32 or more. -/
theorem overflowed_bitNumber (offset : Nat) (e : Expr) (s : Emission) :
    (sc.operandCode offset .u3 e s).state.overflowed = true ↔
      s.overflowed = true ∨
        32 ≤ (sc.number e s.linkage.random).value.toUInt32.toUInt8.toNat := by
  simp only [operandCode, drawing, bind_apply, linking_apply, evaluating_apply, checked_apply,
    pure_apply, Bool.or_eq_true]
  apply or_congr_right
  rw [← Bool.not_eq_false (Checked.overflowed _), Checked.overflowed_byteProduct]
  show ¬ _ * 8 < 256 ↔ _
  omega

/-- The target of a jump is left to the linker, or its distance is computed. -/
theorem keeps_jumpOperand (offset : Nat) (e : Expr) : Keeps true (sc.jumpOperand offset e) := by
  have hchecked : ∀ result : Checked Int32, Keeps true (checked result) := fun _ =>
    keeps_checked (.inr rfl)
  refine (hchecked _).bind fun next => (keeps_linking _).bind fun target => ?_
  cases target with
  | none => exact (sc.keeps_deferWith _ _ _ _).bind fun _ => keeps_pure _
  | some target =>
    refine (hchecked _).bind fun _ => (hchecked _).bind fun _ => ?_
    exact keeps_ite ((keeps_fault _ _).bind fun _ => keeps_pure _) (keeps_pure _)

/-- An operand that is not computed with makes no note, and no operand takes one back. -/
theorem keeps_operandCode {pattern : Pattern} (h : pattern.computes = false ∨ b = true)
    (offset : Nat) (e : Expr) : Keeps b (sc.operandCode offset pattern e) := by
  have hbyte : ∀ lo hi e, Keeps b (do
      let byte ← sc.byteOperand lo hi offset e
      return { bytes := [byte] } : Act Emission OperandCode) := fun lo hi e =>
    (sc.keeps_byteOperand lo hi offset e).bind fun _ => keeps_pure _
  cases pattern with
  | reg | cond | ind => exact keeps_pure _
  | u3 =>
    obtain rfl : b = true := h.resolve_left (by decide)
    exact (keeps_linking _).bind fun _ => (keeps_checked (.inr rfl)).bind fun _ => keeps_pure _
  | vector => exact (keeps_linking _).bind fun _ => keeps_pure _
  | rel =>
    obtain rfl : b = true := h.resolve_left (by decide)
    exact (sc.keeps_jumpOperand offset e).bind fun _ => keeps_pure _
  | n8 | e8 => exact hbyte _ _ _
  | n16 => exact (sc.keeps_wordOperand offset e).bind fun _ => keeps_pure _
  | spE8 =>
    cases e with
    | binary op t l r => exact hbyte _ _ _
    | _ => exact keeps_pure _
  | indN16 =>
    rw [operandCode]
    split
    · exact keeps_pure _
    · exact (sc.keeps_wordOperand offset _).bind fun _ => keeps_pure _
  | ldhN8 | highN8 =>
    rw [operandCode]
    split
    · exact keeps_pure _
    · exact (sc.keeps_topPageOperand offset _).bind fun _ => keeps_pure _

/-- Operands of an instruction, of which none is computed with, make no note. -/
theorem keeps_operandCodes (ps : List Pattern) : ∀ (es : List Expr) (offset : Nat),
    (∀ p ∈ ps, p.computes = false) ∨ b = true → Keeps b (sc.operandCodes offset ps es) := by
  induction ps with
  | nil => exact fun _ _ _ => keeps_pure _
  | cons p ps ih =>
    intro es offset h
    rw [List.forall_mem_cons] at h
    cases es with
    | nil => exact keeps_pure _
    | cons e es =>
      refine (sc.keeps_operandCode (h.imp_left And.left) offset e).bind fun code => ?_
      exact (ih es _ (h.imp_left And.right)).bind fun _ => keeps_pure _

/-- Encoding never takes a note back. -/
theorem keeps_encode (word : Token) (args : List Expr) : Keeps true (sc.encode word args) := by
  refine (keeps_linking _).bind fun variant => ?_
  cases variant with
  | none => exact (keeps_fault _ _).bind fun _ => keeps_pure _
  | some v =>
    refine (sc.keeps_operandCodes v.operands args _ (.inr rfl)).bind fun code => ?_
    exact (keeps_checked (.inr rfl)).bind fun _ => keeps_pure _

/-- Only operands that are computed with are added to the opcode. -/
theorem addend_operandCode {pattern : Pattern} (h : pattern.computes = false) (offset : Nat)
    (e : Expr) (s : Emission) : (sc.operandCode offset pattern e s).value.addend = 0 := by
  cases pattern with
  | u3 | vector | rel => exact absurd h (by decide)
  | reg | cond | ind => rfl
  | n8 | e8 | n16 => simp [operandCode]
  | spE8 =>
    cases e with
    | binary op t l r => simp [operandCode]
    | _ => rfl
  | indN16 | ldhN8 | highN8 =>
    rw [operandCode]
    cases e.bracketed? with
    | none => rfl
    | some inner => simp

theorem addend_operandCodes (ps : List Pattern) (h : ∀ p ∈ ps, p.computes = false) :
    ∀ (es : List Expr) (offset : Nat) (s : Emission),
      (sc.operandCodes offset ps es s).value.addend = 0 := by
  induction ps with
  | nil => exact fun _ _ _ => rfl
  | cons p ps ih =>
    intro es offset s
    rw [List.forall_mem_cons] at h
    cases es with
    | nil => rfl
    | cons e es =>
      simp only [operandCodes, bind_apply, pure_apply, sc.addend_operandCode h.1, ih h.2]
      rfl

/-- An instruction that overflows has an operand that is computed with: most never overflow. -/
theorem computes_of_overflowed {word : Token} {args : List Expr} {s : Emission}
    (hs : s.overflowed = false) (h : (sc.encode word args s).state.overflowed = true) :
    ∃ v ∈ (sc.selectVariant (Text.lower word.text) args s.linkage.random).value,
      ∃ p ∈ v.operands, p.computes = true := by
  simp only [encode, drawing, bind_apply, linking_apply, evaluating_apply] at h
  cases hv : (sc.selectVariant (Text.lower word.text) args s.linkage.random).value with
  | none =>
    simp only [hv, bind_apply, fault_apply, pure_apply, hs] at h
    exact absurd h (by simp)
  | some v =>
    refine ⟨v, rfl, ?_⟩
    apply Classical.byContradiction
    intro hnone
    have hplain : ∀ p ∈ v.operands, p.computes = false := by
      simpa using hnone
    have hcodes : ∀ offset s', s'.overflowed = false →
        (sc.operandCodes offset v.operands args s').state.overflowed = false := fun offset =>
      sc.keeps_operandCodes v.operands args offset (.inl hplain)
    simp only [hv, bind_apply, checked_apply, pure_apply, sc.addend_operandCodes _ hplain,
      Checked.overflowed_byteSum_zero, Bool.or_false] at h
    rw [hcodes] at h
    · exact absurd h (by simp)
    · exact hs

end Scope

end Sm83Asm
