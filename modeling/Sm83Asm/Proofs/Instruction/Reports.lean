import Sm83Asm.Proofs.Instruction.JumpRange
import Sm83Asm.Proofs.Link.Reports

set_option autoImplicit false

/-!
# Where encoding reports

The operands of an instruction are computed to choose its variant, and computed again to encode it.
What the first computation finds is found again by the second one, so an instruction reports
everything once where choosing its variant reports nothing. In the same way the target of a jump is
computed to find its place in the open section, and again when it is left to the linker.

Main statement: `once_encode`.
-/

namespace Sm83Asm

/-- A variant with a jump target among its operands is a jump. -/
theorem isJump_of_mem_table : ∀ entry ∈ instructionTable, ∀ v ∈ entry.2,
    Pattern.rel ∈ v.operands → v.IsJump := by
  have htable : (instructionTable.all fun entry => entry.2.all fun v =>
      !v.operands.contains .rel || v.operands == [.rel] ||
        conditions.any fun c => v.operands == [.cond c.2, .rel]) = true := by
    decide +kernel
  intro entry hentry v hv hrel
  simp only [List.all_eq_true, Bool.or_eq_true, Bool.not_eq_true', List.contains_eq_mem,
    decide_eq_false_iff_not, beq_iff_eq, List.any_eq_true] at htable
  rcases htable entry hentry v hv with (hnot | halone) | ⟨⟨_, condition⟩, -, hcondition⟩
  · exact absurd hrel hnot
  · exact .inl halone
  · exact .inr ⟨condition, hcondition⟩

namespace Scope

open Sm83Asm.Expr

variable (sc : Scope)

/-! ## Operands -/

theorem once_byteOperand (lo hi : Int32) (offset : Nat) {e : Expr} (h : e.Clear sc.state) :
    (sc.byteOperand lo hi offset e).Once (.among e.columns) := by
  unfold byteOperand
  refine (sc.once_numberOrPatch .byte offset h).bind (fun n => ?_) (Places.splits_used _)
  split
  · exact Act.once_reported (used_of_occasions rfl e) _
  · exact Act.once_pure _

theorem once_wordOperand (offset : Nat) {e : Expr} (h : e.Clear sc.state) :
    (sc.wordOperand offset e).Once (.among e.columns) := by
  unfold wordOperand
  refine (sc.once_numberOrPatch .word offset h).bind (fun n => ?_) (Places.splits_used _)
  split
  · exact Act.once_reported (used_of_occasions rfl e) _
  · exact Act.once_pure _

theorem once_topPageOperand (offset : Nat) {e : Expr} (h : e.Clear sc.state) :
    (sc.topPageOperand offset e).Once e.places := by
  intro s
  unfold topPageOperand constant?
  by_cases hc : sc.isConstant e = true
  · rw [if_pos hc]
    show Once _ (_ ++ [])
    rw [List.append_nil]
    exact ((sc.once_number h).map some).drawing s
  · rw [if_neg hc]
    show Once _ ([] ++ (_ ++ []))
    rw [List.nil_append, List.append_nil]
    exact sc.once_topPageOrPatch offset h s

theorem clear_of_bracketed? {st : State} {e inner : Expr} (h : e.Clear st)
    (hb : e.bracketed? = some inner) :
    inner.Clear st ∧ ∀ c ∈ inner.columns, c ∈ e.columns := by
  cases e with
  | bracket t e =>
    cases hb
    exact ⟨h.bracket, fun c hc => List.mem_cons_of_mem _ hc⟩
  | _ => exact absurd hb (by simp [bracketed?])

/-- The distance that is added to or taken from the stack pointer. -/
theorem clear_spDistance {st : State} {op : BinaryOp} {t : Token} {l r : Expr}
    (h : (Expr.binary op t l r).Clear st) :
    let e := if op == .sub then .unary .neg t r else r
    e.Clear st ∧ ∀ c ∈ e.columns, c ∈ (Expr.binary op t l r).columns := by
  dsimp only
  split
  · refine ⟨⟨?_, h.right.literals⟩, ?_⟩
    · have hdistinct : (t.column :: (l.columns ++ r.columns)).Nodup := h.distinct
      show (t.column :: r.columns).Nodup
      grind
    · intro c hc
      have hc : c ∈ t.column :: r.columns := hc
      show c ∈ t.column :: (l.columns ++ r.columns)
      grind
  · exact ⟨h.right, fun c hc => List.mem_cons_of_mem _ (List.mem_append_right _ hc)⟩

/-- The code of an operand that is no jump target reports nothing twice. -/
theorem once_operandCode (offset : Nat) {pattern : Pattern} (hp : pattern ≠ .rel) {e : Expr}
    (h : e.Clear sc.state) : (sc.operandCode offset pattern e).Once (.among e.columns) := by
  cases pattern with
  | reg r | cond condition | ind p => exact Act.once_pure _
  | rel => exact absurd rfl hp
  | u3 =>
    intro s
    simp only [operandCode, Act.bind_apply, Act.checked_apply, Act.pure_apply, List.append_nil]
    exact ((sc.once_number h).drawing s).mono fun c o hp => hp.1
  | vector => exact ((sc.once_number h).drawing.bind_pure _).mono fun c o hp => hp.1
  | n8 | e8 => exact (sc.once_byteOperand _ _ offset h).bind_pure _
  | n16 => exact (sc.once_wordOperand offset h).bind_pure _
  | spE8 =>
    cases e with
    | binary op t l r =>
      obtain ⟨hclear, hcolumns⟩ := clear_spDistance h
      exact ((sc.once_byteOperand _ _ offset hclear).bind_pure _).mono fun c o => hcolumns c
    | _ => exact Act.once_pure _
  | indN16 =>
    unfold operandCode
    dsimp only
    split
    · exact Act.once_pure _
    · rename_i inner hb
      obtain ⟨hclear, hcolumns⟩ := clear_of_bracketed? h hb
      exact ((sc.once_wordOperand offset hclear).bind_pure _).mono fun c o => hcolumns c
  | ldhN8 | highN8 =>
    unfold operandCode
    dsimp only
    split
    · exact Act.once_pure _
    · rename_i inner hb
      obtain ⟨hclear, hcolumns⟩ := clear_of_bracketed? h hb
      exact ((sc.once_topPageOperand offset hclear).bind_pure _).mono fun c o hp =>
        hcolumns c hp.1

/-- Operands without a jump target report nothing twice. -/
theorem once_operandCodes (ps : List Pattern) : ∀ (offset : Nat) (es : List Expr),
    Pattern.rel ∉ ps → AllClear sc.state es →
      (sc.operandCodes offset ps es).Once (.among (allColumns es)) := by
  induction ps with
  | nil => exact fun _ _ _ _ => Act.once_pure _
  | cons p ps ih =>
    intro offset es hrel h
    cases es with
    | nil => exact Act.once_pure _
    | cons e es =>
      rw [List.mem_cons, not_or] at hrel
      rw [operandCodes]
      exact (sc.once_operandCode offset (Ne.symm hrel.1) h.head).bind
        (fun code => (ih _ es hrel.2 h.tail).bind_pure _) (Places.splits_among h.distinct)

/-! ## Jumps -/

/-- A jump target reports nothing twice when nothing was said before it is left to the linker. -/
theorem once_jumpOperand (offset : Nat) {e : Expr} (h : e.Clear sc.state) {s : Emission}
    (hquiet : (sc.jumpTarget? e s.linkage.random).value = none →
      (sc.jumpTarget? e s.linkage.random).reports = []) :
    Once (.among e.columns) (sc.jumpOperand offset e s).reports := by
  cases ht : (sc.jumpTarget? e s.linkage.random).value with
  | none =>
    simp only [jumpOperand, Act.drawing, Act.bind_apply, Act.linking_apply, Act.evaluating_apply,
      Act.checked_apply, Act.pure_apply, ht, hquiet ht, List.nil_append, List.append_nil]
    exact (sc.once_deferWith [] .jump offset h _).mono fun c o hp => hp.1
  | some target =>
    rw [jumpOperand_of_jumpTarget? ht]
    refine Once.append (sc.once_jumpTarget? h s.linkage.random) ?_ (Places.splits_used _)
    split
    · exact .nil
    · exact .singleton (used_of_occasions rfl e)

/-- Choosing the variant of an instruction says nothing, and neither does looking for the place of
a jump target that is then left to the linker. -/
structure ProbesQuietly (word : Token) (args : List Expr) (r : Random) : Prop where
  selection : (sc.selectVariant (Text.lower word.text) args r).reports = []
  target : ∀ v ∈ (sc.selectVariant (Text.lower word.text) args r).value, .rel ∈ v.operands →
    ∀ e ∈ args.getLast?,
      (sc.jumpTarget? e (sc.selectVariant (Text.lower word.text) args r).state).value = none →
      (sc.jumpTarget? e (sc.selectVariant (Text.lower word.text) args r).state).reports = []

instance (word : Token) (args : List Expr) (r : Random) :
    Decidable (sc.ProbesQuietly word args r) :=
  let selected := sc.selectVariant (Text.lower word.text) args r
  decidable_of_iff
    (selected.reports = [] ∧ ∀ v ∈ selected.value, .rel ∈ v.operands → ∀ e ∈ args.getLast?,
      (sc.jumpTarget? e selected.state).value = none →
        (sc.jumpTarget? e selected.state).reports = [])
    ⟨fun h => ⟨h.1, h.2⟩, fun h => ⟨h.1, h.2⟩⟩

/-- Encoding an instruction reports nothing twice when choosing its variant says nothing. -/
theorem once_encode {word : Token} {args : List Expr} (h : AllClear sc.state args) {s : Emission}
    (hquiet : sc.ProbesQuietly word args s.linkage.random) :
    Once (.among (word.column :: allColumns args)) (sc.encode word args s).reports := by
  have hargs : ∀ c o, Places.among (allColumns args) c o →
      Places.among (word.column :: allColumns args) c o := fun c o => List.mem_cons_of_mem _
  simp only [encode, Act.drawing, Act.bind_apply, Act.linking_apply, Act.evaluating_apply,
    hquiet.selection, List.nil_append]
  cases hv : (sc.selectVariant (Text.lower word.text) args s.linkage.random).value with
  | none => exact .singleton fun o ho => List.mem_cons_self
  | some v =>
    simp only [Act.bind_apply, Act.checked_apply, Act.pure_apply, List.append_nil]
    obtain ⟨⟨variants, hentry, hmem⟩, r, hfits⟩ := selectVariant_some hv
    by_cases hrel : .rel ∈ v.operands
    · -- Only the target is computed, in the state that the selection leaves.
      have hjump := isJump_of_mem_table _ hentry v hmem hrel
      obtain ⟨e, he, hcode⟩ := operandCodes_of_isJump sc hjump (length_of_fitAll _ _ _ hfits)
        (sc.state.offset?.getD 0 + v.lead.toList.length + 1)
      have hlast := List.mem_of_getLast? he
      simp only [hcode, Act.bind_apply, Act.pure_apply, List.append_nil]
      refine Once.mono (P := .among e.columns) ?_ fun c o hc =>
        List.mem_cons_of_mem _ (mem_allColumns hlast hc)
      apply sc.once_jumpOperand _ (h.of_mem hlast)
      dsimp only
      exact hquiet.target v hv hrel e he
    · exact ((sc.once_operandCodes v.operands _ args hrel h) _).mono hargs

end Scope

end Sm83Asm
