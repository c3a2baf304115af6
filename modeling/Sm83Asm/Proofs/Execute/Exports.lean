import Sm83Asm.Proofs.Execute.Part
import Sm83Asm.Proofs.Layout.Edit
import Sm83Asm.Proofs.Run.Changes

set_option autoImplicit false

/-!
# What an operation does to the exports

A label carries whether it is exported, and a name that is no label yet may be waiting for one. The
mark of a name holds both (`State.mark`). A label takes over what waits for its name as it is
defined (`Mark.define`), and `EXPORT` marks the label or waits for it (`Mark.request`). A name that
stands in another table will never be a label, so nothing waits for it.

Main statements: `mark_defineLabel`, `mark_exportAll`, and for all other operations
`mark_keywordBody` and `mark_instruction`, which leave the marks alone.
-/

namespace Sm83Asm

/-- What is known about the export of a name: whether its label is exported, if it is a label, and
whether an export waits for it. -/
structure Mark where
  exported? : Option Bool
  pending : Bool

namespace Mark

/-- The mark of a name that becomes a label, with or without a double colon. -/
def define (m : Mark) (doubleColon : Bool) : Mark := ⟨some (doubleColon || m.pending), false⟩

/-- The mark of a name that is to be exported. -/
def request (m : Mark) (plain : Bool) : Mark :=
  match m.exported? with
  | some _ => { m with exported? := some true }
  | none => { m with pending := m.pending || !plain }

@[simp] theorem request_request (m : Mark) (plain : Bool) :
    (m.request plain).request plain = m.request plain := by
  obtain ⟨_ | flag, pending⟩ := m
  · simp [request]
  · rfl

end Mark

namespace State

/-- The mark of a name. -/
def mark (st : State) (name : String) : Mark :=
  ⟨(st.labels.get? name).map Label.exported, st.pendingExports.contains name⟩

variable (st : State)

theorem exported?_eq_none_iff {name : String} :
    (st.mark name).exported? = none ↔ name ∉ st.labels.keys := by
  rw [mark, Option.map_eq_none_iff, Table.get?_eq_none_iff]

/-! ## Labels -/

/-- The end of a label does not say whether it is exported. -/
@[simp] theorem mark_closeLabel : st.closeLabel.mark = st.mark := by
  unfold closeLabel
  split
  · rfl
  · funext name
    simp only [mark, Table.get?_modify]
    split
    · rw [Option.map_map]
      rfl
    · rfl

/-- A label that is placed takes over what waits for its name; other names keep their marks. -/
theorem mark_defineLabel (label : LabelDef) (full : String) :
    (st.defineLabel label).mark full = st.mark full ∨
      (full ∉ st.labels.keys ∧ st.isPlainName full = false ∧
        (st.defineLabel label).mark full = (st.mark full).define label.isExported) := by
  unfold defineLabel
  dsimp only
  split
  · rename_i place body _ _
    cases st.qualify label.name.text with
    | none => exact Or.inl rfl
    | some name =>
      dsimp only
      split
      · exact Or.inl rfl
      · rename_i hnew
        rw [Bool.or_eq_true, not_or, Table.contains_iff, isDefined, Bool.or_eq_true, not_or] at hnew
        obtain ⟨hname, hplain, -⟩ := hnew
        obtain ⟨openLabel, labels, hclose, hkeys, -⟩ := st.closeLabel_footprint
        have hname' : name ∉ st.closeLabel.labels.keys := by
          rw [hclose, hkeys]
          exact hname
        have hpending : st.closeLabel.pendingExports = st.pendingExports := by rw [hclose]
        simp only [mark, Table.get?_insert_of_not_mem _ hname', hpending]
        by_cases he : full = name
        · subst he
          refine Or.inr ⟨hname, Bool.eq_false_iff.2 hplain, ?_⟩
          rw [if_pos rfl, Option.map_some, Mark.define]
          simp
        · refine Or.inl ?_
          have hold := congrArg Mark.exported? (congrFun st.mark_closeLabel full)
          rw [if_neg he, Mark.mk.injEq]
          refine ⟨hold, ?_⟩
          rw [Bool.eq_iff_iff]
          simp [he]
  · exact Or.inl rfl

/-! ## Exports -/

/-- The full name that an argument of `EXPORT` asks for. -/
def requested? : Expr → Option String
  | .identifier t => st.qualify t.text
  | _ => none

theorem exportOne_of_none {e : Expr} (h : st.requested? e = none) :
    (st.exportOne e).mark = st.mark := by
  unfold requested? at h
  unfold exportOne
  split
  · dsimp only at h
    rw [h]
    rfl
  · rfl

theorem exportOne_of_some {e : Expr} {name : String} (h : st.requested? e = some name) :
    st.exportOne e =
      if st.labels.contains name then
        { st with labels := st.labels.modify name fun l => { l with exported := true } }
      else if st.isDefined name || st.pendingExports.contains name then st
      else { st with pendingExports := st.pendingExports ++ [name] } := by
  unfold requested? at h
  split at h
  · unfold exportOne
    dsimp only
    rw [h]
  · exact absurd h (by simp)

/-- Exporting one name leaves the others alone. -/
theorem mark_exportOne_of_ne {e : Expr} {full : String} (h : st.requested? e ≠ some full) :
    (st.exportOne e).mark full = st.mark full := by
  cases hr : st.requested? e with
  | none => rw [st.exportOne_of_none hr]
  | some name =>
    have hne : full ≠ name := by
      rintro rfl
      exact h hr
    rw [st.exportOne_of_some hr]
    split
    · simp only [mark, Table.get?_modify, if_neg hne]
    · split
      · rfl
      · have hpending : (st.pendingExports ++ [name]).contains full =
            st.pendingExports.contains full := by
          rw [Bool.eq_iff_iff]
          simp [hne]
        simp only [mark, hpending]

/-- A label is exported at once, and a name that can still become one waits for it. -/
theorem mark_exportOne_of_eq {e : Expr} {full : String} (hroot : st.qualify full = some full)
    (h : st.requested? e = some full) :
    (st.exportOne e).mark full = (st.mark full).request (st.isPlainName full) := by
  rw [st.exportOne_of_some h]
  split
  · rename_i hlabel
    obtain ⟨l, hl⟩ := Option.isSome_iff_exists.1 hlabel
    simp only [mark, Table.get?_modify, if_true, hl, Option.map_some, Mark.request]
  · rename_i hlabel
    have hnone : st.labels.get? full = none := Option.not_isSome_iff_eq_none.1 hlabel
    have hdefined : st.isDefined full = st.isPlainName full := by
      rw [isDefined, hroot, Option.any_some, Bool.eq_false_iff.2 hlabel, Bool.or_false]
      rfl
    rw [hdefined]
    split
    · rename_i hkept
      have hwaits : (st.pendingExports.contains full || !st.isPlainName full) =
          st.pendingExports.contains full := by
        cases hp : st.isPlainName full <;> simp_all
      simp only [mark, hnone, Option.map_none, Mark.request, hwaits]
    · rename_i hnew
      have hplain : st.isPlainName full = false := by
        cases hp : st.isPlainName full <;> simp_all
      simp [mark, hnone, Mark.request, hplain]

theorem exportOne_footprint (e : Expr) : ∃ diagnostics labels pendingExports,
    st.exportOne e = { st with diagnostics, labels, pendingExports } := by
  unfold exportOne
  split
  · split
    · exact ⟨_, _, _, rfl⟩
    · split
      · exact ⟨_, _, _, rfl⟩
      · split
        · exact ⟨_, _, _, rfl⟩
        · exact ⟨_, _, _, rfl⟩
  · exact ⟨_, _, _, rfl⟩

/-- A line that exports names marks all of them, in whatever order they stand. -/
theorem mark_exportAll {full : String} (hroot : st.qualify full = some full) (names : List Expr) :
    (st.exportAll names).mark full =
      if full ∈ names.filterMap st.requested? then (st.mark full).request (st.isPlainName full)
      else st.mark full := by
  unfold exportAll
  induction names generalizing st with
  | nil => rfl
  | cons e es ih =>
    obtain ⟨diagnostics, labels, pendingExports, hone⟩ := st.exportOne_footprint e
    have hroot' : (st.exportOne e).qualify full = some full := by rw [hone]; exact hroot
    have hplain : (st.exportOne e).isPlainName full = st.isPlainName full := by rw [hone]; rfl
    have hrequest : (st.exportOne e).requested? = st.requested? := by rw [hone]; rfl
    rw [List.foldl_cons, ih _ hroot', hplain, hrequest]
    by_cases he : st.requested? e = some full
    · have hmem : full ∈ (e :: es).filterMap st.requested? :=
        List.mem_filterMap.2 ⟨e, List.mem_cons_self, he⟩
      rw [st.mark_exportOne_of_eq hroot he, if_pos hmem, Mark.request_request, ite_self]
    · have hmem : full ∈ (e :: es).filterMap st.requested? ↔ full ∈ es.filterMap st.requested? := by
        simp [List.mem_filterMap, he]
      rw [st.mark_exportOne_of_ne he]
      simp only [hmem]

/-! ## Bytes -/

theorem mark_emit (bytes : Array UInt8) : (st.emit bytes).mark = st.mark := by
  obtain ⟨_, h⟩ := st.emit_footprint bytes
  rw [h]
  rfl

theorem mark_emitting {α : Type} (x : Act Emission α) : (st.emitting x).2.mark = st.mark := rfl

/-! ## Sections -/

theorem mark_openSection (declared : Section) (token : Token) :
    (st.openSection declared token).mark = st.mark := by
  unfold openSection
  dsimp only
  split
  · split
    · exact st.mark_closeLabel
    · rfl
  · exact mark_closeLabel { st with sections := st.sections.insert declared.name declared }

theorem mark_beginSection (name kind : Expr) (attrs : List Expr) :
    (st.beginSection name kind attrs).mark = st.mark := by
  obtain ⟨random, diagnostics, h | ⟨declared, -, -, h⟩⟩ := st.beginSection_cases name kind attrs
  · rw [h]
    rfl
  · rw [h, mark_openSection]
    rfl

theorem mark_pushSection : st.pushSection.mark = st.mark := st.mark_closeLabel

theorem mark_popSection (word : Token) : (st.popSection word).mark = st.mark := by
  unfold popSection
  dsimp only
  split
  · exact st.mark_closeLabel
  · exact st.mark_closeLabel

theorem Differs.mark {st st' : State} {part : Part} (h : st.Differs part st')
    (hpart : part ≠ .places) : st'.mark = st.mark := by
  cases h with
  | places => exact absurd rfl hpart
  | _ => rfl

end State

/-! ## Keywords and instructions -/

namespace Assembler

variable (asm : Assembler)

/-- Only `EXPORT`, `GLOBAL` and `PURGE` reach the marks. -/
theorem mark_keywordBody {keyword : Keyword}
    (hk : ∀ k ∈ [Keyword.exportName, .globalName, .purge], keyword ≠ k) (label : Option LabelDef)
    (word : Token) (args : List Expr) :
    (asm.keywordBody none keyword label word args).state.mark = asm.state.mark := by
  by_cases hpart : keyword.part = .places
  · cases keyword with
    | sectionStart =>
      rcases args with _ | ⟨name, _ | ⟨kind, attrs⟩⟩
      · rfl
      · rfl
      · exact State.mark_beginSection _ _ _ _
    | pushs => exact State.mark_pushSection _
    | pops => exact State.mark_popSection _ _
    | exportName | globalName | purge => exact absurd rfl (hk _ (by simp))
    | _ => exact absurd hpart (by decide)
  · exact (asm.differs_keywordBody keyword label word args).mark hpart

theorem mark_optionBody (keyword : Keyword) (args : List Token) :
    (asm.optionBody keyword args).state.mark = asm.state.mark :=
  (asm.differs_optionBody keyword args).mark (by decide)

/-- An instruction without a label. -/
theorem mark_instruction (word : Token) (args : List Expr) :
    (asm.instruction none word args).state.mark = asm.state.mark := by
  unfold instruction mapState
  dsimp only
  split
  · rfl
  · dsimp only [State.defineLabel?]
    have hbytes := asm.state.mark_emitting (asm.state.scope.encode word args)
    generalize asm.state.emitting (asm.state.scope.encode word args) = result at hbytes ⊢
    obtain ⟨_ | bytes, st⟩ := result
    · exact hbytes
    · exact (st.mark_emit _).trans hbytes

end Assembler

end Sm83Asm
