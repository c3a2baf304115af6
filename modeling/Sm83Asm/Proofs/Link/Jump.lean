import Sm83Asm.Proofs.Instruction.Overflow
import Sm83Asm.Proofs.Link.Deferred

set_option autoImplicit false

/-!
# Jumps that are resolved at once

The operand of a relative jump is resolved on one of two routes: as a place of the open section,
measured from the start of the section, or as a constant, measured from the address to which the
section is fixed. Everything else is left to the linker, which measures from the address that it has
given to the section.

Main statement: wherever the linker puts the sections, a jump that is resolved at once lands on the
value that the linker would compute for its operand (`jumpOperand_eq_linked`). Both routes give the
offset of the target from the base address of the section, which is what carries the proof.
-/

namespace Sm83Asm

/-- The byte for a jump whose operand lies at an address: the distance of the target from the byte
behind the operand. -/
def Link.jumpByte (address target : Int32) : UInt8 := (target - (address + 1)).toUInt32.toUInt8

/-- A distance in the range of a jump survives being cut to a byte. -/
theorem toInt32_toUInt8_of_range {n : Int32} (hlo : -128 ≤ n) (hhi : n ≤ 127) :
    n.toUInt32.toUInt8.toInt8.toInt32 = n := by
  have hlo' : (-128 : Int) ≤ n.toInt := Int32.le_iff_toInt_le.1 hlo
  have hhi' : n.toInt ≤ (127 : Int) := Int32.le_iff_toInt_le.1 hhi
  apply Int32.toInt_inj.1
  rw [Int8.toInt_toInt32]
  show (n.toBitVec.setWidth 8).toInt = n.toBitVec.toInt
  have hcond := BitVec.toInt_eq_toNat_cond n.toBitVec
  have hint : n.toBitVec.toInt = n.toInt := rfl
  have hlt := n.toBitVec.isLt
  rw [BitVec.toInt_setWidth, Int.bmod_def]
  split at hcond
  · split
    · omega
    · omega
  · split
    · omega
    · omega

namespace Scope

/-- Every section lies at a base address, a fixed section at the one it asks for, and labels and `@`
lie at their offsets from there. -/
structure LiesAt (sc : Scope) (base : String → Int32) (w : Link.World) : Prop where
  fixed : ∀ name s a, sc.state.sections.get? name = some s → s.fixedAddress = some a →
    base name = Int32.ofNat a.toNat
  address : ∀ full place offset, sc.Marks full place offset →
    w.address full = base place + Int32.ofNat offset

/-- An expression has a number, in whatever way texts are compared, and compiling it goes without a
report. -/
structure Known (sc : Scope) (w : Link.World) (e : Expr) (n : Int32) : Prop where
  value : ∀ mode, (sc.meaning w mode e).bind sc.asNumber? = some n
  quiet : ∀ s, (sc.compile (sc.here?.getD 0) e s).reports = []

variable {sc : Scope} {base : String → Int32} {w : Link.World} {place : String}

theorem LiesAt.consistent (hw : sc.LiesAt base w) : sc.Consistent w := by
  intro a b place m n ha hb
  rw [hw.address a place m ha, hw.address b place n hb]
  grind

/-! ## Constants -/

/-- The number of a steady expression does not depend on the random source. -/
theorem settled_number (sc : Scope) {e : Expr} (hs : e.isSteady = true) :
    (sc.number e).Settled := by
  apply Act.Settled.map
  unfold evaluate
  split
  · exact (settled_value sc e hs).bind fun _ => settled_coerce sc _ _ _
  · exact (Act.Settled.fault _ _).bind fun _ => Act.Settled.pure _

theorem known_of_number (hw : sc.Consistent w) {e : Expr} (hs : e.isSteady = true)
    (hc : sc.isConstant e = true) {r : Random} (h : (sc.number e r).reports = []) :
    sc.Known w e (sc.number e r).value where
  value mode := number_of_isConstant hw mode hs hc h
  quiet s := by
    rw [compile_of_isConstant hc]
    have hsame := ((settled_number sc hs).apply_eq s.random r).2
    simp [hsame, h]

/-! ## Places of the open section -/

/-- A name that has a place has no value before linking. -/
theorem isConstant_of_placeOf? {t : Token} {p : String × Nat}
    (h : sc.placeOf? t.text = some p) : sc.isConstant (.identifier t) = false := by
  unfold placeOf? at h
  by_cases hat : (t.text == "@") = true
  · simp [isConstant, bne, hat]
  · rw [if_neg hat] at h
    cases hl : sc.state.lookup? t.text with
    | none => simp [isConstant, hl]
    | some v => simp [hl] at h

theorem location?_of_isConstant {e : Expr} (h : sc.isConstant e = true) :
    sc.location? e = none := by
  cases hl : sc.location? e with
  | none => rfl
  | some p =>
    obtain ⟨t, rfl, hp⟩ := exists_identifier_of_location? hl
    rw [isConstant_of_placeOf? hp] at h
    exact absurd h (by simp)

/-- A place and a constant have no difference that could be folded. -/
theorem isConstant_binary_of_right (op : BinaryOp) (t : Token) {l r : Expr}
    (hl : sc.isConstant l = false) (hr : sc.isConstant r = true) :
    sc.isConstant (.binary op t l r) = false := by
  have hd : sc.difference? (.binary op t l r) = none := by
    unfold difference?
    split
    · rename_i heq
      cases heq
      unfold distance?
      rw [location?_of_isConstant hr]
      cases sc.location? l <;> rfl
    · rfl
  simp [isConstant, hd, hl]

/-- The name of a place compiles to the address of its symbol. -/
theorem known_of_placeOf? (hw : sc.LiesAt base w) {t : Token} {offset : Nat}
    (h : sc.placeOf? t.text = some (place, offset)) :
    sc.Known w (.identifier t) (base place + Int32.ofNat offset) := by
  refine ⟨fun mode => ?_, fun s => ?_⟩
  · obtain ⟨full, hmarks, hvalue⟩ := nameValue?_of_placeOf? w h
    rw [meaning, hvalue, hw.address full place offset hmarks]
    rfl
  · rw [compile, if_neg (by simp [isConstant_of_placeOf? h])]
    unfold placeOf? at h
    unfold compileName
    by_cases hat : (t.text == "@") = true
    · rw [if_pos hat] at h ⊢
      cases hc : sc.state.current with
      | none => simp [hc] at h
      | some place => simp
    · rw [if_neg hat] at h ⊢
      cases hq : sc.state.qualify t.text with
      | none => simp [hq] at h
      | some full => simp

/-- An operand a constant distance away from one that is known. -/
theorem Known.moved {op : BinaryOp} (hop : op = .add ∨ op = .sub) {t : Token} {l r : Expr}
    {m n : Int32} (hl : sc.Known w l m) (hr : sc.Known w r n)
    (hc : sc.isConstant (.binary op t l r) = false) :
    sc.Known w (.binary op t l r) (if op == .add then m + n else m - n) := by
  refine ⟨fun mode => ?_, fun s => ?_⟩
  · obtain ⟨a, ha, hm⟩ := Option.bind_eq_some_iff.1 (hl.value mode)
    obtain ⟨b, hb, hn⟩ := Option.bind_eq_some_iff.1 (hr.value mode)
    have hnumbers : ¬ ComparesTexts op a b := by
      rintro ⟨_, _, -, -, rfl | rfl⟩
      · exact absurd hop (by simp)
      · exact absurd hop (by simp)
    rw [meaning, ha, hb]
    simp only [Option.bind_eq_bind, Option.bind_some, combined?_of_not_comparesTexts sc hnumbers,
      hm, hn, Option.pure_def]
    rcases hop with rfl | rfl
    · rfl
    · rfl
  · rw [compile, if_neg (by simp [hc])]
    simp [hl.quiet, hr.quiet]

/-- The first route: a place of the open section, and constants added to it or taken away. -/
theorem known_of_target? (hw : sc.LiesAt base w) (hc : sc.state.current = some place) (e : Expr) :
    e.isSteady = true → ∀ r target, (sc.target? e r).reports = [] →
      (sc.target? e r).value = some target →
        sc.isConstant e = false ∧ sc.Known w e (base place + target) := by
  induction e using target?.induct with
  | case1 t =>
    intro _ r target _ hv
    simp only [target?, Act.pure_apply] at hv
    split at hv
    · rename_i here offset hplace
      split at hv
      · rename_i hhere
        obtain rfl := Option.some.inj hv
        -- The place lies in the open section, whose base address is meant.
        obtain rfl : here = place := by simpa [hc] using hhere
        exact ⟨isConstant_of_placeOf? hplace, known_of_placeOf? hw hplace⟩
      · exact absurd hv (by simp)
    · exact absurd hv (by simp)
  | case2 op t l r hop ih =>
    intro hs s target hr hv
    simp only [Expr.isSteady, Bool.and_eq_true] at hs
    simp only [target?, hop, if_true, Act.bind_apply, List.append_eq_nil_iff] at hr hv
    cases hl : (sc.target? l s).value with
    | none => simp [hl] at hv
    | some start =>
      simp only [hl] at hr hv
      obtain ⟨hleft, hknown⟩ := ih hs.1 s start hr.1 hl
      by_cases hconst : sc.isConstant r = true
      · simp only [hconst, if_true, Act.bind_apply, Act.pure_apply, List.append_nil,
          Option.some.injEq] at hr hv
        have hwhole := isConstant_binary_of_right op t hleft hconst
        have hright := known_of_number hw.consistent hs.2 hconst hr.2
        have hop' : op = .add ∨ op = .sub := by simpa using hop
        have hmoved := hknown.moved hop' hright hwhole
        have harith : base place + target =
            if op == .add then base place + start + (sc.number r (sc.target? l s).state).value
            else base place + start - (sc.number r (sc.target? l s).state).value := by
          rw [← hv]
          split
          · grind
          · grind
        rw [harith]
        exact ⟨hwhole, hmoved⟩
      · simp [hconst] at hv
  | case3 op t l r hop =>
    intro _ r target _ hv
    simp [target?, hop] at hv
  | case4 e h h' =>
    intro _ r target _ hv
    unfold target? at hv
    split at hv
    · exact absurd rfl (h _)
    · exact absurd rfl (h' _ _ _ _)
    · simp at hv

/-! ## Both routes -/

/-- What is resolved at once is the offset of the target from the base address. -/
theorem known_of_jumpTarget? (hw : sc.LiesAt base w) (hc : sc.state.current = some place)
    {e : Expr} (hs : e.isSteady = true) {r : Random} {target : Checked Int32}
    (hr : (sc.jumpTarget? e r).reports = []) (hv : (sc.jumpTarget? e r).value = some target) :
    sc.Known w e (base place + target.value) := by
  simp only [jumpTarget?, Act.bind_apply, List.append_eq_nil_iff] at hr hv
  cases ht : (sc.target? e r).value with
  | some found =>
    simp only [ht, Act.pure_apply, Option.some.injEq] at hv
    subst hv
    exact (known_of_target? hw hc e hs r found hr.1 ht).2
  | none =>
    simp only [ht, Act.bind_apply, Act.pure_apply, List.append_nil] at hr hv
    -- The second route: a constant address, in a section that is fixed.
    unfold constant? at hr hv
    by_cases hconst : sc.isConstant e = true
    · simp only [hconst, if_true, Act.map_apply] at hr hv
      split at hv
      · rename_i start address hfixed haddress
        obtain rfl := Option.some.inj haddress
        obtain rfl := Option.some.inj hv
        obtain ⟨body, hbody, ha⟩ := Option.bind_eq_some_iff.1 hfixed
        rw [State.section?, hc] at hbody
        have hknown := known_of_number hw.consistent hs hconst hr.2
        have harith : base place + ((sc.number e (sc.target? e r).state).value -
            Int32.ofNat start.toNat) = (sc.number e (sc.target? e r).state).value := by
          rw [hw.fixed place body start hbody ha]
          grind
        rw [Checked.value_difference, harith]
        exact hknown
      · exact absurd hv (by simp)
    · simp [hconst] at hv

/-- An operand that queues no patch and makes no report was resolved, to a distance in range. -/
theorem jumpOperand_resolved (hc : sc.state.current = some place) {o : Nat} {e : Expr}
    {s : Emission} (hr : (sc.jumpOperand o e s).reports = [])
    (hp : (sc.jumpOperand o e s).state.patches = s.patches) :
    ∃ target, (sc.jumpTarget? e s.linkage.random).reports = [] ∧
      (sc.jumpTarget? e s.linkage.random).value = some target ∧
      (sc.jumpOperand o e s).value = (target.value - (Int32.ofNat o + 1)).toUInt32.toUInt8 ∧
      -128 ≤ target.value - (Int32.ofNat o + 1) ∧
      target.value - (Int32.ofNat o + 1) ≤ 127 := by
  cases ht : (sc.jumpTarget? e s.linkage.random).value with
  | none =>
    simp only [jumpOperand, Act.drawing, Act.bind_apply, Act.linking_apply, Act.evaluating_apply,
      Act.checked_apply, ht, defer, deferWith, hc, Act.modify_apply, Act.pure_apply] at hp
    have hsize := congrArg Array.size hp
    simp at hsize
  | some target =>
    rw [jumpOperand_of_jumpTarget? ht] at hr ⊢
    obtain ⟨hfound, hrange⟩ := List.append_eq_nil_iff.1 hr
    simp only [ite_eq_left_iff, reduceCtorEq, imp_false, Decidable.not_not, Bool.and_eq_true,
      decide_eq_true_eq] at hrange
    exact ⟨target, hfound, rfl, rfl, hrange⟩

/-! ## Main statement -/

/-- Placing bytes that adds no diagnostic makes no report. -/
theorem reports_of_emitting {α : Type} {st : State} {x : Act Emission α}
    (h : (st.emitting x).2.diagnostics = st.diagnostics) :
    (x st.emission).reports = [] := by
  have hsize := congrArg Array.size h
  simp only [State.emitting, State.record, Array.size_append, List.size_toArray,
    List.length_map] at hsize
  exact List.eq_nil_of_length_eq_zero (by omega)

/-- Early resolution agrees with the linker. When the operand of a relative jump, without random
numbers, is turned into a byte without a patch and without a diagnostic, then wherever the sections
lie the jump lands on the value of the operand: the address behind the operand and the byte as a
signed distance add up to it. A patch for the same operand would hold a program, compiled without a
diagnostic, that leaves this value, and would receive the same byte. -/
theorem jumpOperand_eq_linked (sc : Scope) (base : String → Int32) (w : Link.World)
    (hw : sc.LiesAt base w) (place : String) (hc : sc.state.current = some place) (e : Expr)
    (hs : e.isSteady = true) (o : Nat)
    (hp : (sc.state.emitting (sc.jumpOperand o e)).2.patches = sc.state.patches)
    (hd : (sc.state.emitting (sc.jumpOperand o e)).2.diagnostics = sc.state.diagnostics) :
    let d := (sc.state.emitting (sc.jumpOperand o e)).1
    let (program, after) := sc.state.linking (sc.compile (sc.here?.getD 0) e)
    ∃ n, (∀ mode, (sc.meaning w mode e).bind sc.asNumber? = some n) ∧
      base place + Int32.ofNat o + 1 + d.toInt8.toInt32 = n ∧
      after.diagnostics = sc.state.diagnostics ∧
      Link.run w after.symbols.keys program [] = some [n] ∧
      d = Link.jumpByte (base place + Int32.ofNat o) n := by
  obtain ⟨target, hr, hv, hbyte, hlo, hhi⟩ := jumpOperand_resolved hc (reports_of_emitting hd) hp
  have hknown := known_of_jumpTarget? hw hc hs hr hv
  have hquiet := hknown.quiet ⟨sc.state.random, sc.state.symbols⟩
  obtain ⟨n, hn, hleaves⟩ := leaves_compile hw.consistent e hs _ hquiet
  obtain rfl : base place + target.value = n := Option.some.inj ((hknown.value _).symm.trans hn)
  have hd' : (sc.state.emitting (sc.jumpOperand o e)).1 =
      (target.value - (Int32.ofNat o + 1)).toUInt32.toUInt8 := hbyte
  refine ⟨base place + target.value, hknown.value, ?_, ?_, hleaves _ (List.prefix_refl _) [], ?_⟩
  · rw [hd', toInt32_toUInt8_of_range hlo hhi]
    grind
  · simp [State.record, hquiet]
  · have harith : base place + target.value - (base place + Int32.ofNat o + 1) =
        target.value - (Int32.ofNat o + 1) := by grind
    rw [hd', Link.jumpByte, harith]

/-- The operand `lab + 1`. -/
def sampleTarget : Expr :=
  .binary .add (sampleToken "+") (.identifier (sampleToken "lab")) (.number (sampleToken "1"))

theorem liesAt_sample : sampleScope.LiesAt (fun _ => 0x4000) sampleWorld where
  fixed name s a hs ha := by
    obtain ⟨rfl, rfl⟩ : name = "main" ∧ _ := by
      simpa [sampleScope] using Table.mem_entries_of_get? hs
    exact absurd ha (by simp)
  address := address_sample

theorem jumpOperand_sampleTarget :
    sampleScope.LiesAt (fun _ => 0x4000) sampleWorld ∧ sampleTarget.isSteady = true ∧
      let (d, after) := sampleScope.state.emitting (sampleScope.jumpOperand 4 sampleTarget)
      after.patches = sampleScope.state.patches ∧
        after.diagnostics = sampleScope.state.diagnostics ∧ d = 0xFD ∧
        (0x4000 + 4 + 1 + d.toInt8.toInt32 = 0x4002 ∧
          sampleScope.meaning sampleWorld .always sampleTarget = some (.number 0x4002)) ∧
        d = Link.jumpByte (0x4000 + 4) 0x4002 := by
  refine ⟨liesAt_sample, rfl, rfl, rfl, rfl, ?_⟩
  obtain ⟨n, hn, hland, -, -, hbyte⟩ := jumpOperand_eq_linked sampleScope (fun _ => 0x4000)
    sampleWorld liesAt_sample "main" rfl sampleTarget rfl 4 rfl rfl
  obtain rfl : 0x4002 = n := Option.some.inj (hn .always)
  exact ⟨⟨hland, rfl⟩, hbyte⟩

end Scope

end Sm83Asm
