import Sm83Asm.Execute.Sections

set_option autoImplicit false

/-!
# What a declaration of a section may ask for

A section may be fixed to an address of its region and to one of the banks its region has, and may
be aligned to at most sixteen bits (`Section.Lawful`). Reading a declaration checks all three: what
it lets through is lawful, and everything else ends in a report and opens no section.
-/

namespace Sm83Asm

/-- A bank that a region allows. -/
def Region.HasBank (region : Region) (bank : UInt32) : Prop :=
  ∃ first last, region.banks? = some (first, last) ∧ first ≤ bank.toNat ∧ bank.toNat ≤ last

/-- A section asks only for what its region allows. -/
structure Section.Lawful (s : Section) : Prop where
  address : ∀ a, s.fixedAddress = some a → s.region.hasAddress a.toNat = true
  bank : ∀ b, s.bank = some b → s.region.HasBank b
  alignment : ∀ n, s.alignment = some n → n.toNat ≤ 16

namespace State

/-- A number that is not negative, without its sign. -/
theorem toNat_toUInt32_of_nonneg {n : Int32} (h : 0 ≤ n.toInt) :
    (n.toUInt32.toNat : Int) = n.toInt := by
  have hcond := BitVec.toInt_eq_toNat_cond n.toBitVec
  have hint : n.toBitVec.toInt = n.toInt := rfl
  have hnat : n.toUInt32.toNat = n.toBitVec.toNat := rfl
  have hlt := n.toBitVec.isLt
  split at hcond
  · omega
  · omega

/-- Addresses have sixteen bits, so one that is checked survives being cut to them. -/
theorem hasAddress_toUInt16 {region : Region} {n : Int32}
    (h : region.hasAddress n.toInt = true) :
    region.hasAddress n.toUInt32.toUInt16.toNat = true := by
  have hlast : region.addresses.2 < 65536 := by
    cases region <;> decide
  rw [Region.hasAddress, Bool.and_eq_true, decide_eq_true_eq, decide_eq_true_eq] at h
  have hnat := toNat_toUInt32_of_nonneg (n := n) (by omega)
  have hcut : (n.toUInt32.toUInt16.toNat : Int) = n.toInt := by
    rw [UInt32.toNat_toUInt16]
    omega
  rw [Region.hasAddress, hcut, Bool.and_eq_true, decide_eq_true_eq, decide_eq_true_eq]
  exact h

theorem hasAddress_of_fixedAddress {st st' : State} {region : Region} {e : Option Expr}
    {address : Option UInt16} (h : st.fixedAddress region e = (some address, st')) :
    ∀ a, address = some a → region.hasAddress a.toNat = true := by
  intro a ha
  cases e with
  | none =>
    simp only [fixedAddress, Prod.mk.injEq, Option.some.injEq] at h
    exact absurd (h.1.trans ha) (by simp)
  | some e =>
    simp only [fixedAddress] at h
    split at h
    · rename_i hin
      simp only [Prod.mk.injEq, Option.some.injEq] at h
      obtain rfl := Option.some.inj (h.1.trans ha)
      exact hasAddress_toUInt16 hin
    · simp at h

/-- Attributes that a region allows. -/
structure Attributes.Lawful (region : Region) (attrs : Attributes) : Prop where
  bank : ∀ b, attrs.bank = some b → region.HasBank b
  alignment : ∀ n, attrs.alignment = some n → n.toNat ≤ 16

theorem Attributes.lawful_empty (region : Region) : Attributes.Lawful region {} :=
  ⟨by simp, by simp⟩

theorem lawful_readAttribute {st st' : State} {region : Region} {attrs attrs' : Attributes}
    {e : Expr} (ha : attrs.Lawful region)
    (h : st.readAttribute region attrs e = (some attrs', st')) : attrs'.Lawful region := by
  unfold readAttribute at h
  split at h
  · rename_i t base value
    dsimp only at h
    split at h
    · split at h
      · simp at h
      · rename_i first last hbanks
        split at h
        · rename_i hin
          simp only [Prod.mk.injEq, Option.some.injEq] at h
          obtain ⟨rfl, -⟩ := h
          rw [Bool.and_eq_true, decide_eq_true_eq, decide_eq_true_eq] at hin
          have hnat := toNat_toUInt32_of_nonneg (n := (st.number value).1) (by omega)
          refine ⟨fun b hb => ?_, ha.alignment⟩
          obtain rfl := Option.some.inj hb
          exact ⟨first, last, hbanks, by omega, by omega⟩
        · simp at h
    · split at h
      · rename_i hin
        simp only [Prod.mk.injEq, Option.some.injEq] at h
        obtain ⟨rfl, -⟩ := h
        rw [Bool.and_eq_true, decide_eq_true_eq, decide_eq_true_eq, Int32.le_iff_toInt_le,
          Int32.le_iff_toInt_le] at hin
        change 0 ≤ _ ∧ _ ≤ (16 : Int) at hin
        have hnat := toNat_toUInt32_of_nonneg (n := (st.number value).1) hin.1
        refine ⟨ha.bank, fun n hn => ?_⟩
        obtain rfl := Option.some.inj hn
        rw [UInt32.toNat_toUInt8]
        omega
      · simp at h
    · simp at h
  · simp at h

theorem lawful_readAttributes {st st' : State} {region : Region} {attrs attrs' : Attributes}
    {es : List Expr} (ha : attrs.Lawful region)
    (h : st.readAttributes region attrs es = (some attrs', st')) : attrs'.Lawful region := by
  induction es generalizing st attrs with
  | nil =>
    simp only [readAttributes, Prod.mk.injEq, Option.some.injEq] at h
    exact h.1 ▸ ha
  | cons e es ih =>
    rw [readAttributes] at h
    split at h
    · simp at h
    · rename_i attrs₁ st₁ hone
      exact ih (lawful_readAttribute ha hone) h

/-- The section that a declaration asks for, once its address and its attributes have been read. -/
theorem lawful_of_read {st st₁ st₂ st₃ : State} {region : Region} {e : Option Expr}
    {es : List Expr} {fixedAddress : Option UInt16} {attrs : Attributes} {name file : String}
    (haddress : st.fixedAddress region e = (some fixedAddress, st₁))
    (hattrs : st₂.readAttributes region {} es = (some attrs, st₃)) :
    Section.Lawful { name, file, region, fixedAddress, bank := attrs.bank,
                     alignment := attrs.alignment } := by
  have hlawful := lawful_readAttributes (Attributes.lawful_empty region) hattrs
  exact ⟨hasAddress_of_fixedAddress haddress, hlawful.bank, hlawful.alignment⟩

end State

end Sm83Asm
