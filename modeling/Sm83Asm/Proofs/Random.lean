import Mathlib.Algebra.Order.Ring.Int
import Sm83Asm.Random

set_option autoImplicit false

/-!
# The random source never degenerates

Each of the three xor-shifts of a draw can be undone: going from the end that the shift leaves
alone, every bit of the result and a bit that is already known give the next bit of the register.
So no two registers lead to the same one, and since zero leads to zero, no other register does.

A number in a range is computed in words of 32 and 64 bits. `rangeInWords?` is that computation,
given up as soon as a word is not the number it stands for.

Main statements: `step_injective`, `rangeInWords?_eq`, and `never_degenerates` for every sequence of
calls.
-/

namespace Sm83Asm.Random

/-! ## Registers -/

section XorShift

variable {width shift : Nat} {x y : BitVec width}

/-- A shift to the left leaves the low bits alone, and each bit above is mixed with one below. -/
theorem xor_shiftLeft_injective (hshift : 0 < shift) (h : x ^^^ x <<< shift = y ^^^ y <<< shift) :
    x = y := by
  have hbit : ∀ i, x.getLsbD i = y.getLsbD i := by
    intro i
    induction i using Nat.strongRecOn with
    | ind i ih =>
      have hi := congrArg (·.getLsbD i) h
      simp only [BitVec.getLsbD_xor, BitVec.getLsbD_shiftLeft] at hi
      by_cases hlow : i < shift
      · simpa [hlow] using hi
      · rw [ih (i - shift) (by omega)] at hi
        exact Bool.xor_left_inj.1 hi
  exact BitVec.eq_of_getLsbD_eq fun i _ => hbit i

/-- A shift to the right leaves the high bits alone, and each bit below is mixed with one above. -/
theorem xor_shiftRight_injective (hshift : 0 < shift) (h : x ^^^ x >>> shift = y ^^^ y >>> shift) :
    x = y := by
  have hbit : ∀ i, x.getLsbD i = y.getLsbD i := by
    intro i
    induction hleft : width - i using Nat.strongRecOn generalizing i with
    | ind left ih =>
      by_cases hi : i < width
      · have hbits := congrArg (·.getLsbD i) h
        simp only [BitVec.getLsbD_xor, BitVec.getLsbD_ushiftRight] at hbits
        rw [ih (width - (shift + i)) (by omega) (shift + i) rfl] at hbits
        exact Bool.xor_left_inj.1 hbits
      · rw [BitVec.getLsbD_of_ge x i (by omega), BitVec.getLsbD_of_ge y i (by omega)]
  exact BitVec.eq_of_getLsbD_eq fun i _ => hbit i

end XorShift

/-- No two registers lead to the same one. -/
theorem step_injective {x y : UInt32} (h : step x = step y) : x = y := by
  have hbits := congrArg UInt32.toBitVec h
  simp only [step, UInt32.toBitVec_xor, UInt32.toBitVec_shiftLeft, UInt32.toBitVec_shiftRight]
    at hbits
  have hsecond := @xor_shiftLeft_injective 32 5 _ _ (by decide) hbits
  have hfirst := @xor_shiftRight_injective 32 17 _ _ (by decide) hsecond
  exact UInt32.toBitVec_inj.1 (@xor_shiftLeft_injective 32 13 _ _ (by decide) hfirst)

theorem step_ne_zero {x : UInt32} (h : x ≠ 0) : step x ≠ 0 :=
  fun hzero => h (step_injective (hzero.trans (by decide : step 0 = 0).symm))

/-! ## Numbers in a range -/

/-- A word, if it is the number `n` itself and not what is left of it in too few bits. -/
def fit? {α : Type} (value : α → Int) (n : Int) (word : α) : Option α :=
  if value word = n then some word else none

/-- The number of choices between two bounds, computed in words: their distance and one more. -/
def choicesInWords? (lo hi : Int32) : Option UInt64 := do
  let distance ← fit? Int64.toInt (hi.toInt - lo.toInt) (hi.toInt64 - lo.toInt64)
  let choices ← fit? Int64.toInt (distance.toInt + 1) (distance + 1)
  fit? (fun w => (w.toNat : Int)) choices.toInt choices.toUInt64

/-- The choice that a draw makes, computed in words: the remainder of the draw tells how far it lies
above the lower bound. -/
def choiceInWords? (lo : Int32) (x : UInt32) (choices : UInt64) : Option Int32 :=
  if choices = 0 then none
  else do
    let remainder := x.toUInt64 % choices
    let above ← fit? Int64.toInt remainder.toNat remainder.toInt64
    let sum ← fit? Int64.toInt (lo.toInt + above.toInt) (lo.toInt64 + above)
    fit? Int32.toInt sum.toInt sum.toInt32

/-- A number between two bounds in either order, computed in words. There is none when a word has
too few bits or there is nothing to choose from. -/
def rangeInWords? (r : Random) (a b : Int32) : Option (Int32 × Random) :=
  let (lo, hi) := if a ≤ b then (a, b) else (b, a)
  ((choicesInWords? lo hi).bind (choiceInWords? lo r.long.1)).map fun n => (n, r.long.2)

theorem toInt_of_bits64 {word : Int64} {n : Int} (h : word.toInt = n.bmod (2 ^ 64))
    (hlo : -2 ^ 63 ≤ n) (hhi : n < 2 ^ 63) : word.toInt = n :=
  h.trans (Int.bmod_eq_of_le (by omega) (by omega))

theorem toNat_toUInt64 {word : Int64} (h : 0 ≤ word.toInt) :
    (word.toUInt64.toNat : Int) = word.toInt := by
  rw [Int64.toNat_toUInt64_of_le (Int64.le_iff_toInt_le.2 h)]
  exact Int.toNat_of_nonneg h

theorem toInt_toInt64 {word : UInt64} (h : word.toNat < 2 ^ 63) :
    word.toInt64.toInt = word.toNat := by
  apply BitVec.toInt_eq_toNat_of_lt
  have : word.toInt64.toBitVec.toNat = word.toNat := rfl
  omega

/-- Where a draw lies in a range. -/
theorem pick_bounds {lo hi : Int} (h : lo ≤ hi) (x : Int) :
    lo ≤ lo + x % (hi - lo + 1) ∧ lo + x % (hi - lo + 1) ≤ hi := by
  have hpos : 0 < hi - lo + 1 := by omega
  have hnonneg := Int.emod_nonneg x hpos.ne'
  have hlt := Int.emod_lt_of_pos x hpos
  omega

/-- The bounds of 32 bits have at most `2 ^ 32` choices between them, which 64 bits can count. -/
theorem choicesInWords?_eq {lo hi : Int32} (h : lo.toInt ≤ hi.toInt) :
    ∃ choices, choicesInWords? lo hi = some choices ∧
      (choices.toNat : Int) = hi.toInt - lo.toInt + 1 := by
  have hlo := lo.le_toInt
  have hhi := hi.toInt_lt
  have hdistance : (hi.toInt64 - lo.toInt64).toInt = hi.toInt - lo.toInt := by
    apply toInt_of_bits64
    · rw [Int64.toInt_sub, Int32.toInt_toInt64, Int32.toInt_toInt64]
    · omega
    · omega
  have hcount : (hi.toInt64 - lo.toInt64 + 1).toInt = (hi.toInt64 - lo.toInt64).toInt + 1 := by
    apply toInt_of_bits64
    · rw [Int64.toInt_add]
      rfl
    · omega
    · omega
  have hunsigned := @toNat_toUInt64 (hi.toInt64 - lo.toInt64 + 1) (by omega)
  refine ⟨(hi.toInt64 - lo.toInt64 + 1).toUInt64, ?_, by omega⟩
  simp only [choicesInWords?, fit?, hdistance, hcount, hunsigned, Option.bind_eq_bind,
    Option.bind_some, if_true]

/-- Between the farthest bounds there are too many choices for 32 bits. -/
example : choicesInWords? Int32.minValue Int32.maxValue = some 4294967296 := by decide

/-- A choice has 32 bits again. -/
theorem choiceInWords?_eq {lo hi : Int32} (h : lo.toInt ≤ hi.toInt) (x : UInt32)
    {choices : UInt64} (hchoices : (choices.toNat : Int) = hi.toInt - lo.toInt + 1) :
    choiceInWords? lo x choices =
      some (Int32.ofInt (lo.toInt + (x.toNat : Int) % (hi.toInt - lo.toInt + 1))) := by
  have hlo := lo.le_toInt
  have hhi := hi.toInt_lt
  obtain ⟨hpicklo, hpickhi⟩ := pick_bounds h x.toNat
  have hne : choices ≠ 0 := by
    rintro rfl
    rw [UInt64.toNat_zero] at hchoices
    omega
  -- The remainder, its sum with the lower bound and the narrowing all keep to their width.
  have hremainder : ((x.toUInt64 % choices).toNat : Int) =
      (x.toNat : Int) % (hi.toInt - lo.toInt + 1) := by
    rw [UInt64.toNat_mod, UInt32.toNat_toUInt64, Int.natCast_emod, hchoices]
  have habove := @toInt_toInt64 (x.toUInt64 % choices) (by omega)
  have hsum : (lo.toInt64 + (x.toUInt64 % choices).toInt64).toInt =
      lo.toInt + (x.toUInt64 % choices).toInt64.toInt := by
    apply toInt_of_bits64
    · rw [Int64.toInt_add, Int32.toInt_toInt64]
    · omega
    · omega
  have hnarrow : (lo.toInt64 + (x.toUInt64 % choices).toInt64).toInt32.toInt =
      (lo.toInt64 + (x.toUInt64 % choices).toInt64).toInt := by
    rw [Int64.toInt_toInt32]
    exact Int.bmod_eq_of_le (by omega) (by omega)
  have hword : (lo.toInt64 + (x.toUInt64 % choices).toInt64).toInt32 =
      Int32.ofInt (lo.toInt + (x.toNat : Int) % (hi.toInt - lo.toInt + 1)) := by
    apply Int32.toInt_inj.1
    rw [hnarrow, hsum, habove, hremainder, Int32.toInt_ofInt_of_le (by omega) (by omega)]
  rw [choiceInWords?, if_neg hne]
  simp only [fit?, if_pos habove, if_pos hsum, if_pos hnarrow, Option.bind_eq_bind,
    Option.bind_some]
  rw [hword]

/-- The bounds of a range in their order. -/
theorem range_cases (r : Random) (a b : Int32) :
    ∃ lo hi : Int32, lo.toInt ≤ hi.toInt ∧ lo.toInt = min a.toInt b.toInt ∧
      hi.toInt = max a.toInt b.toInt ∧
      r.rangeInWords? a b = ((choicesInWords? lo hi).bind (choiceInWords? lo r.long.1)).map
        (fun n => (n, r.long.2)) ∧
      r.range a b =
        (Int32.ofInt (lo.toInt + (r.long.1.toNat : Int) % (hi.toInt - lo.toInt + 1)), r.long.2) := by
  by_cases h : a ≤ b
  · have hle := Int32.le_iff_toInt_le.1 h
    refine ⟨a, b, hle, (min_eq_left hle).symm, (max_eq_right hle).symm, ?_, ?_⟩
    · rw [rangeInWords?, if_pos h]
    · rw [range, if_pos h]
  · have hle : b.toInt ≤ a.toInt := by
      rw [Int32.le_iff_toInt_le] at h
      omega
    refine ⟨b, a, hle, (min_eq_right hle).symm, (max_eq_left hle).symm, ?_, ?_⟩
    · rw [rangeInWords?, if_neg h]
    · rw [range, if_neg h]

theorem rangeInWords?_eq (r : Random) (a b : Int32) :
    r.rangeInWords? a b = some (r.range a b) := by
  obtain ⟨lo, hi, hle, -, -, hwords, hrange⟩ := r.range_cases a b
  obtain ⟨choices, hfound, hchoices⟩ := choicesInWords?_eq hle
  rw [hwords, hrange, hfound, Option.bind_some, choiceInWords?_eq hle _ hchoices, Option.map_some]

theorem range_bounds (r : Random) (a b : Int32) :
    min a.toInt b.toInt ≤ (r.range a b).1.toInt ∧ (r.range a b).1.toInt ≤ max a.toInt b.toInt := by
  obtain ⟨lo, hi, hle, hlo, hhi, -, hrange⟩ := r.range_cases a b
  obtain ⟨hpicklo, hpickhi⟩ := pick_bounds hle r.long.1.toNat
  have := lo.le_toInt
  have := hi.toInt_lt
  rw [hrange, Int32.toInt_ofInt_of_le (by omega) (by omega), ← hlo, ← hhi]
  exact ⟨hpicklo, hpickhi⟩

/-! ## Sequences of calls -/

/-- What can be asked of a random source. -/
inductive Call where
  | seed (value : UInt32)
  | range (a b : Int32)
  | byte
  | word
  | long

/-- The random source behind a call. -/
def Call.next (r : Random) : Call → Random
  | .seed value => .ofSeed value
  | .range a b => (r.range a b).2
  | .byte => r.byte.2
  | .word => r.word.2
  | .long => r.long.2

/-- The random source behind some calls. -/
def after (r : Random) (calls : List Call) : Random := calls.foldl Call.next r

theorem register_ofSeed (seed : UInt32) : (ofSeed seed).register ≠ 0 := by
  unfold ofSeed
  split
  · decide
  · rename_i h
    exact fun hzero => h (beq_iff_eq.2 hzero)

/-- No call leads to zero. -/
theorem register_next {r : Random} (h : r.register ≠ 0) (call : Call) :
    (call.next r).register ≠ 0 := by
  cases call with
  | seed value => exact register_ofSeed value
  | range a b =>
    obtain ⟨lo, hi, -, -, -, -, hrange⟩ := r.range_cases a b
    rw [Call.next, hrange]
    exact step_ne_zero h
  | byte | word | long => exact step_ne_zero h

theorem register_after {r : Random} (h : r.register ≠ 0) (calls : List Call) :
    (r.after calls).register ≠ 0 := by
  induction calls generalizing r with
  | nil => exact h
  | cons call calls ih => exact ih (register_next h call)

/-- The random source never degenerates. Behind any seed and any calls the register is not zero, so
the next 32 bits are not zero either. A number in a range is computed in words that have enough
bits, and it lies between the bounds, in whichever order they are. And two different registers do
not lead to the same one. -/
theorem never_degenerates :
    (∀ (seed : UInt32) (calls : List Call),
      ((ofSeed seed).after calls).register ≠ 0 ∧ ((ofSeed seed).after calls).long.1 ≠ 0) ∧
      (∀ (r : Random) (a b : Int32), r.rangeInWords? a b = some (r.range a b) ∧
        min a.toInt b.toInt ≤ (r.range a b).1.toInt ∧
          (r.range a b).1.toInt ≤ max a.toInt b.toInt) ∧
      Function.Injective fun r : Random => r.long.2 := by
  refine ⟨fun seed calls => ?_, fun r a b => ⟨r.rangeInWords?_eq a b, r.range_bounds a b⟩, ?_⟩
  · have h := register_after (register_ofSeed seed) calls
    exact ⟨h, step_ne_zero h⟩
  · rintro ⟨x⟩ ⟨y⟩ heq
    exact congrArg mk (step_injective (mk.inj heq))

end Sm83Asm.Random
