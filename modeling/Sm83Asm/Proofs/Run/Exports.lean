import Mathlib.Data.List.Nodup
import Sm83Asm.Proofs.Execute.Exports
import Sm83Asm.Proofs.Layout.Symbols
import Sm83Asm.Proofs.Run.Depth
import Sm83Asm.Proofs.Run.Labels
import Sm83Asm.Proofs.Run.Names

set_option autoImplicit false

/-!
# Exports in any order

A label may be exported by a double colon behind it or by the keywords `EXPORT` and `GLOBAL`, which
may stand before the label or behind it and may use a local name. This module follows the mark of
one name through the lines of a run. What a line does to it is known from three things that can be
read off the line (`Visit.markAfter`): whether it places the label, whether a double colon stands
there, and which names it asks to export.

Main statement: without `PURGE`, the symbol of a label is exported if and only if one of the lines
of the run says so, wherever that line stands (`export_independent_of_order`).
-/

namespace Sm83Asm

open Stores

/-- The arguments of a line with a keyword. -/
def Line.args (line : Line) : List Expr :=
  match line.operation with
  | some (.keyword _ args) => args
  | _ => []

/-- Whether a line exports names. -/
def Line.exports (line : Line) : Prop :=
  line.word? = some .exportName ∨ line.word? = some .globalName

instance (line : Line) : Decidable line.exports := inferInstanceAs (Decidable (_ ∨ _))

/-! ## One line -/

/-- What a parsed line can do to the marks. -/
inductive MarksStep (line : Line) (st : State) : (String → Mark) → Prop
  /-- The label in front is not defined: it is a symbol, or the line is refused. -/
  | unlabelled (hw : ¬ line.exports) : MarksStep line st st.mark
  | labelled (hw : ¬ line.exports) : MarksStep line st (st.defineLabel? line.label).mark
  | exporting (hw : line.exports) :
      MarksStep line st ((st.defineLabel? line.label).exportAll line.args).mark

namespace MarksStep

variable {line : Line} {st : State} {marks : String → Mark}

theorem of_unlabelled (hw : ¬ line.exports) (h : marks = st.mark) : MarksStep line st marks := by
  rw [h]
  exact .unlabelled hw

theorem of_labelled (hw : ¬ line.exports) (h : marks = (st.defineLabel? line.label).mark) :
    MarksStep line st marks := by
  rw [h]
  exact .labelled hw

end MarksStep

namespace Assembler

variable (asm : Assembler)

theorem marksStep_keyword {line : Line} {keyword : Keyword} {word : Token} {args : List Expr}
    (h : line.IsKeyword keyword word args) (hpurge : keyword ≠ .purge) :
    MarksStep line asm.state (execute none line asm).state.mark := by
  have hword := h.word?_eq
  rw [asm.execute_of_isKeyword none h]
  by_cases hexport : keyword = .exportName ∨ keyword = .globalName
  · have hargs : line.args = args := by
      unfold Line.args
      rw [h.operation]
    have hexports : line.exports := by
      unfold Line.exports
      rw [hword]
      simpa using hexport
    have hstep : MarksStep line asm.state _ := .exporting hexports
    rw [hargs] at hstep
    rcases hexport with rfl | rfl
    · exact hstep
    · exact hstep
  · have hplain : ¬ line.exports := by
      unfold Line.exports
      rw [hword]
      simpa using hexport
    push Not at hexport
    rw [mark_keywordBody _ (by simp [hexport.1, hexport.2, hpurge])]
    cases keyword.namesLabel with
    | true => exact .unlabelled hplain
    | false => exact .labelled hplain

/-- A keyword that leaves the marks alone, behind a label that it may define. -/
theorem marksStep_withKeyword {line : Line} (hplain : ¬ line.exports) {word : Token} {count : Nat}
    {body : Keyword → Assembler → Assembler}
    (hbody : ∀ keyword asm', Keyword.ofWord? word.text = some keyword →
      (keyword.checksOwnArity || keyword.arity.accepts count) = true →
        (body keyword asm').state.mark = asm'.state.mark) :
    MarksStep line asm.state (asm.withKeyword line.label word count body).state.mark := by
  unfold withKeyword
  cases hk : Keyword.ofWord? word.text with
  | none => exact .unlabelled hplain
  | some keyword =>
    have hlabelled : MarksStep line asm.state (if keyword.namesLabel then asm
        else asm.mapState (·.defineLabel? line.label)).state.mark := by
      cases keyword.namesLabel with
      | true => exact .unlabelled hplain
      | false => exact .labelled hplain
    dsimp only
    split
    · rename_i haccepted
      rwa [hbody keyword _ hk haccepted]
    · exact hlabelled

/-- What a line does to the marks that expands to nothing, or that has no level left. -/
theorem marksStep_execute {line : Line} (hpurge : line.word? ≠ some .purge) :
    MarksStep line asm.state (execute none line asm).state.mark := by
  by_cases hkeyword : ∃ keyword word args, line.IsKeyword keyword word args
  · obtain ⟨keyword, word, args, h⟩ := hkeyword
    refine asm.marksStep_keyword h ?_
    rintro rfl
    exact hpurge h.word?_eq
  · have hplain : ¬ line.exports := by
      intro hexports
      have hraw : ∀ k, line.word? = some k → k = .exportName ∨ k = .globalName → False := by
        rintro k hw hk
        rcases Line.word?_cases hw with ⟨word, args, h⟩ | ⟨rfl, -⟩ | htext
        · exact hkeyword ⟨k, word, args, h⟩
        · exact absurd hk (by simp)
        · rcases hk with rfl | rfl
          · exact absurd htext (by simp [Keyword.takesRawText])
          · exact absurd htext (by simp [Keyword.takesRawText])
      rcases hexports with hw | hw
      · exact hraw _ hw (Or.inl rfl)
      · exact hraw _ hw (Or.inr rfl)
    unfold execute
    rcases hop : line.operation with _ | op
    · exact .labelled hplain
    · cases op with
      | directive word args =>
        obtain ⟨_, _, h⟩ := asm.directive_footprint word
        exact .of_unlabelled hplain (by rw [h]; rfl)
      | assign word e =>
        exact .of_unlabelled hplain ((asm.state.differs_assign line.label word e).mark (by decide))
      | keyword word args =>
        refine marksStep_withKeyword asm hplain fun keyword asm' hk haccepted => ?_
        exact absurd ⟨keyword, word, args, hop, hk, haccepted⟩ hkeyword
      | options word args =>
        exact marksStep_withKeyword asm hplain fun keyword asm' _ _ =>
          asm'.mark_optionBody keyword args
      | opcode word args =>
        dsimp only
        rcases hlabel : line.label with _ | label
        · exact .of_unlabelled hplain (asm.mark_instruction word args)
        · rcases asm.instruction_unlabelled label word args with ⟨_, _, h⟩ | h
          · exact .of_unlabelled hplain (by rw [h]; rfl)
          · exact .of_labelled hplain (by rw [h, mark_instruction, hlabel]; rfl)
      | macroCall name args =>
        obtain ⟨_, h⟩ := (asm.mapState (·.defineLabel? line.label)).callMacro_footprint name args
        exact .of_labelled hplain (by rw [h]; rfl)

/-- An expansion begins with the marks that the line itself leaves, and its end leaves them. -/
theorem mark_expansion? {line : Line} {x : Expansion} (h : expansion? line asm = some x) :
    x.opened.state.mark = (execute none line asm).state.mark ∧
      ∀ a, (x.close a).state.mark = a.state.mark := by
  unfold expansion? at h
  split at h
  · rename_i name args hop
    obtain ⟨body, hbody, rfl⟩ := Option.map_eq_some_iff.1 h
    refine ⟨?_, fun _ => rfl⟩
    unfold execute callMacro
    rw [hop]
    dsimp only
    rw [hbody]
    rfl
  · rename_i word args hop
    split at h
    · exact absurd h (by simp)
    · rename_i keyword hk
      dsimp only at h
      split at h
      · rename_i hcount
        rw [asm.execute_of_isKeyword none ⟨hop, hk, hcount⟩]
        generalize (if keyword.namesLabel = true then asm else _) = asm' at h ⊢
        unfold ofKeyword? at h
        split at h
        · rw [mark_keywordBody _ (by simp)]
          unfold ofRepeat? at h
          split at h
          · obtain rfl := Option.some.inj h
            exact ⟨rfl, fun _ => rfl⟩
          · exact absurd h (by simp)
        · obtain rfl := Option.some.inj h
          rw [mark_keywordBody _ (by simp)]
          unfold ofInclude
          dsimp only
          split
          · exact ⟨rfl, fun _ => rfl⟩
          · exact ⟨rfl, fun _ => rfl⟩
        · exact absurd h (by simp)
      · exact absurd h (by simp)
  · exact absurd h (by simp)

/-! ## What a line says about a name -/

/-- The line brings the label into the table, of its own account. -/
def Visit.places (v : Visit) (full : String) : Prop :=
  full ∉ v.before.state.labels.keys ∧
    full ∈ (runLine none v.line v.text v.before).state.labels.keys

instance (v : Visit) (full : String) : Decidable (v.places full) :=
  inferInstanceAs (Decidable (_ ∧ _))

/-- A double colon stands behind the label of the line. -/
def Visit.hasDoubleColon (v : Visit) : Bool := v.label?.any LabelDef.isExported

/-- The full names that the line asks to export, as they are understood when the label in front of
it has been defined. -/
def Visit.requested (v : Visit) : List String :=
  match parsed? v.line v.text v.before with
  | some (parsed, _) =>
    if parsed.exports then parsed.args.filterMap v.labelled.state.requested? else []
  | none => []

/-- The mark of a name after a line. -/
def Visit.markAfter (v : Visit) (full : String) : Mark :=
  let found := v.before.state.mark full
  let placed := if v.places full then found.define v.hasDoubleColon else found
  if full ∈ v.requested then placed.request (v.before.state.isPlainName full) else placed

end Assembler

/-- A request does not make a label of a name. -/
theorem Mark.exported?_request_eq_none_iff (m : Mark) (plain : Bool) :
    (m.request plain).exported? = none ↔ m.exported? = none := by
  obtain ⟨_ | flag, pending⟩ := m
  · simp [request]
  · simp [request]

/-- Nothing changes, or the label in front of a line is placed. -/
theorem State.mark_defineLabel? (st : State) (label : Option LabelDef) (full : String) :
    (st.defineLabel? label).mark full = st.mark full ∨
      (full ∉ st.labels.keys ∧ st.isPlainName full = false ∧
        (st.defineLabel? label).mark full =
          (st.mark full).define (label.any LabelDef.isExported)) := by
  cases label with
  | none => exact Or.inl rfl
  | some label => exact st.mark_defineLabel label full

namespace Assembler

/-- The label in front of a line leaves the names of the other tables alone. -/
theorem isPlainName_defineLabel? (st : State) (label : Option LabelDef) (full : String) :
    (st.defineLabel? label).isPlainName full = st.isPlainName full := by
  cases label with
  | none => rfl
  | some label =>
    show (st.defineLabel label).isPlainName full = _
    unfold State.defineLabel
    dsimp only
    split
    · split
      · rfl
      · split
        · rfl
        · obtain ⟨openLabel, labels, hclose, -, -⟩ := st.closeLabel_footprint
          rw [hclose]
          rfl
    · rfl

section Visits

variable {v : Visit} {full : String}

theorem places_iff : v.places full ↔ (v.before.state.mark full).exported? = none ∧
    ((runLine none v.line v.text v.before).state.mark full).exported? ≠ none := by
  rw [Visit.places, Ne, State.exported?_eq_none_iff, State.exported?_eq_none_iff, not_not]

/-- The label is placed first, and then the names are exported. -/
theorem mark_eq_markAfter {placed : Mark}
    (hplaced : placed = v.before.state.mark full ∨
      (v.before.state.mark full).exported? = none ∧ v.before.state.isPlainName full = false ∧
        placed = (v.before.state.mark full).define v.hasDoubleColon)
    (hafter : (runLine none v.line v.text v.before).state.mark full =
      if full ∈ v.requested then placed.request (v.before.state.isPlainName full) else placed) :
    (runLine none v.line v.text v.before).state.mark full = v.markAfter full ∧
      (v.places full → v.before.state.isPlainName full = false) := by
  have hlabel : ((runLine none v.line v.text v.before).state.mark full).exported? = none ↔
      placed.exported? = none := by
    rw [hafter]
    split
    · exact placed.exported?_request_eq_none_iff _
    · exact Iff.rfl
  rw [Visit.markAfter]
  rcases hplaced with rfl | ⟨hnone, hplain, rfl⟩
  · have hnot : ¬ v.places full := by
      rw [places_iff, Ne, hlabel]
      exact fun h => h.2 h.1
    rw [if_neg hnot]
    exact ⟨hafter, fun h => absurd h hnot⟩
  · have hplaces : v.places full := by
      rw [places_iff, Ne, hlabel]
      exact ⟨hnone, by simp [Mark.define]⟩
    rw [if_pos hplaces]
    exact ⟨hafter, fun _ => hplain⟩

/-- **What a line does to the mark of a name**, of its own account. A name that stands in another
table is not made a label. -/
theorem mark_visit (hroot : Rooted full) (hpurge : v.word? ≠ some .purge) :
    (runLine none v.line v.text v.before).state.mark full = v.markAfter full ∧
      (v.places full → v.before.state.isPlainName full = false) := by
  cases hp : parsed? v.line v.text v.before with
  | none =>
    obtain ⟨diagnostics, hrun⟩ := runLine_of_not_parsed none hp
    apply mark_eq_markAfter (Or.inl rfl)
    rw [Visit.requested, hp, hrun]
    rfl
  | some found =>
    obtain ⟨parsed, asm⟩ := found
    obtain ⟨diagnostics, hasm⟩ := parsed?_footprint hp
    have hbefore : asm.state.mark = v.before.state.mark := by
      rw [hasm]
      rfl
    have hplain : asm.state.isPlainName full = v.before.state.isPlainName full := by
      rw [hasm]
      rfl
    have hword : parsed.word? ≠ some .purge := by
      rw [Visit.word?, hp] at hpurge
      exact hpurge
    have hcolon : v.hasDoubleColon = parsed.label.any LabelDef.isExported := by
      rw [Visit.hasDoubleColon, Visit.label?, hp]
      rfl
    have hlabel := asm.state.mark_defineLabel? parsed.label full
    rw [← State.exported?_eq_none_iff, hbefore, hplain, ← hcolon] at hlabel
    have hstep := asm.marksStep_execute hword
    rw [← runLine_of_parsed? none hp] at hstep
    generalize hmark : (runLine none v.line v.text v.before).state.mark = mark at hstep
    -- With no name to export, what the label brings is all; else the exports come on top of it.
    cases hstep with
    | unlabelled hw =>
      rw [← hmark]
      apply mark_eq_markAfter (Or.inl rfl)
      rw [hmark, Visit.requested, hp]
      simp only [hw, if_false, List.not_mem_nil]
      rw [hbefore]
    | labelled hw =>
      rw [← hmark]
      apply mark_eq_markAfter hlabel
      rw [hmark, Visit.requested, hp]
      simp only [hw, if_false, List.not_mem_nil]
    | exporting hw =>
      rw [← hmark]
      apply mark_eq_markAfter hlabel
      have hqualify : (asm.state.defineLabel? parsed.label).qualify full = some full :=
        qualify_of_rooted (asm.state.defineLabel? parsed.label).stores hroot
      rw [hmark, State.mark_exportAll _ hqualify, isPlainName_defineLabel?, hplain]
      rw [Visit.requested, hp, labelled_of_parsed? hp]
      simp only [hw, if_true]
      rfl

end Visits

/-! ## Names of the other tables -/

end Assembler

theorem Stores.has_of_change {word : Option Keyword} {a b : Stores} {name : String} {k : Meaning}
    (hw : word ≠ some .purge) (h : Change word a b) (hk : a.Has name k) : b.Has name k := by
  -- Only a `PURGE` takes a name out of a table.
  cases h with
  | number =>
    cases k with
    | number => exact Table.mem_keys_insert.2 (Or.inl hk)
    | _ => exact hk
  | string =>
    cases k with
    | string => exact Table.mem_keys_insert.2 (Or.inl hk)
    | _ => exact hk
  | macroBody =>
    cases k with
    | macroBody => exact Table.mem_keys_insert.2 (Or.inl hk)
    | _ => exact hk
  | assign =>
    cases k with
    | var => exact Table.mem_keys_insert.2 (Or.inl hk)
    | _ => exact hk
  | label =>
    cases k with
    | label => exact Table.mem_keys_insert.2 (Or.inl hk)
    | _ => exact hk
  | relabel other =>
    cases k with
    | label =>
      show name ∈ (a.labels.modify other _).keys
      rw [Table.keys_modify]
      exact hk
    | _ => exact hk
  | purge _ hpurge => exact absurd hpurge hw
  | purgeLabel _ hpurge => exact absurd hpurge hw
  | _ => cases k <;> exact hk

theorem State.isPlainName_iff {st : State} {name : String} :
    st.isPlainName name = true ↔ ∃ k, k ≠ .label ∧ st.stores.Has name k := by
  simp only [isPlainName, Bool.or_eq_true, Table.contains_iff]
  constructor
  · rintro (((h | h) | h) | h)
    · exact ⟨.number, by simp, h⟩
    · exact ⟨.string, by simp, h⟩
    · exact ⟨.var, by simp, h⟩
    · exact ⟨.macroBody, by simp, h⟩
  · rintro ⟨k, hk, h⟩
    cases k with
    | number => exact Or.inl (Or.inl (Or.inl h))
    | string => exact Or.inl (Or.inl (Or.inr h))
    | var => exact Or.inl (Or.inr h)
    | macroBody => exact Or.inr h
    | label => exact absurd rfl hk

/-- Without `PURGE` a name stays in the tables that it stands in. -/
theorem State.isPlainName_of_changes {word : Option Keyword} {a b : State} {name : String}
    (hw : word ≠ some .purge) (h : Changes word a.stores b.stores)
    (ha : a.isPlainName name = true) : b.isPlainName name = true := by
  obtain ⟨k, hk, hhas⟩ := isPlainName_iff.1 ha
  refine isPlainName_iff.2 ⟨k, hk, ?_⟩
  exact of_changes (Q := fun a b => a.Has name k → b.Has name k) (fun _ h => h)
    (fun h h' hx => h' (h hx)) (has_of_change hw) h hhas

namespace Assembler

/-! ## Runs -/

/-- The lines of a run that have begun, in order. -/
def begun (moments : List Moment) : List Visit :=
  moments.filterMap fun m => if m.done then none else some m.visit

@[simp] theorem begun_nil : begun [] = [] := rfl

@[simp] theorem begun_append (ms ns : List Moment) : begun (ms ++ ns) = begun ms ++ begun ns :=
  List.filterMap_append

@[simp] theorem begun_around (v : Visit) (inner : List Moment) :
    begun (v.around inner) = v :: begun inner := by
  have hbegin : begun [⟨v, false⟩] = [v] := rfl
  have hend : begun [⟨v, true⟩] = [] := rfl
  have hsplit : v.around inner = [⟨v, false⟩] ++ inner ++ [⟨v, true⟩] := rfl
  rw [hsplit, begun_append, begun_append, hbegin, hend, List.append_nil, List.singleton_append]

/-- Some line says that a label is exported. -/
def SaysExported (lines : List Visit) (full : String) : Prop :=
  (∃ v ∈ lines, v.places full ∧ v.hasDoubleColon = true) ∨ ∃ v ∈ lines, full ∈ v.requested

instance (lines : List Visit) (full : String) : Decidable (SaysExported lines full) :=
  inferInstanceAs (Decidable (_ ∨ _))

/-- The mark of a name is what the lines so far say. As long as the name is no label, only requests
count, and these wait unless the name stands in another table. -/
structure Told (full : String) (lines : List Visit) (st : State) : Prop where
  label : ∀ flag, (st.mark full).exported? = some flag → (flag = true ↔ SaysExported lines full)
  unplaced : (st.mark full).exported? = none → ∀ v ∈ lines, ¬ v.places full
  waiting : (st.mark full).exported? = none → st.isPlainName full = false →
    ((st.mark full).pending = true ↔ ∃ v ∈ lines, full ∈ v.requested)

section Told

variable {full : String} {lines : List Visit}

theorem Told.of_mark {st st' : State} (h : Told full lines st) (hmark : st'.mark = st.mark)
    (hplain : st.isPlainName full = true → st'.isPlainName full = true) :
    Told full lines st' where
  label := hmark ▸ h.label
  unplaced := hmark ▸ h.unplaced
  waiting hnone hfalse := by
    rw [hmark] at hnone ⊢
    apply h.waiting hnone
    cases hp : st.isPlainName full with
    | false => rfl
    | true => exact absurd (hplain hp) (by simp [hfalse])

/-- The mark of a label after one more line. -/
theorem exported?_markAfter_of_some {v : Visit} {flag : Bool}
    (h : (v.before.state.mark full).exported? = some flag) :
    (v.markAfter full).exported? = some (flag || decide (full ∈ v.requested)) := by
  have hnot : ¬ v.places full := fun hplaces => by
    rw [places_iff, h] at hplaces
    exact absurd hplaces.1 (by simp)
  simp only [Visit.markAfter, if_neg hnot]
  split
  · rename_i hmem
    simp only [Mark.request, h, hmem, decide_true, Bool.or_true]
  · rename_i hmem
    simp only [h, hmem, decide_false, Bool.or_false]

/-- The mark of a label that a line places. -/
theorem exported?_markAfter_of_places {v : Visit} (h : v.places full) :
    (v.markAfter full).exported? =
      some (v.hasDoubleColon || (v.before.state.mark full).pending ||
        decide (full ∈ v.requested)) := by
  simp only [Visit.markAfter, if_pos h]
  split
  · rename_i hmem
    simp only [Mark.request, Mark.define, hmem, decide_true, Bool.or_true]
  · rename_i hmem
    simp only [Mark.define, hmem, decide_false, Bool.or_false]

/-- The mark of a name that is still no label. -/
theorem markAfter_of_unplaced {v : Visit} (h : (v.before.state.mark full).exported? = none)
    (hnot : ¬ v.places full) :
    (v.markAfter full).exported? = none ∧ (v.before.state.isPlainName full = false →
      (v.markAfter full).pending =
        ((v.before.state.mark full).pending || decide (full ∈ v.requested))) := by
  simp only [Visit.markAfter, if_neg hnot]
  split
  · rename_i hmem
    simp only [Mark.request, h, hmem, decide_true, true_and]
    intro hplain
    rw [hplain]
    rfl
  · rename_i hmem
    simp only [h, hmem, decide_false, Bool.or_false, true_and]
    intro _
    trivial

theorem exists_mem_concat {P : Visit → Prop} {v : Visit} :
    (∃ u ∈ lines ++ [v], P u) ↔ (∃ u ∈ lines, P u) ∨ P v := by
  simp [or_and_right, exists_or]

theorem saysExported_concat {v : Visit} :
    SaysExported (lines ++ [v]) full ↔
      (SaysExported lines full ∨ v.places full ∧ v.hasDoubleColon = true) ∨
        full ∈ v.requested := by
  rw [SaysExported, exists_mem_concat, exists_mem_concat, SaysExported, or_or_or_comm, ← or_assoc]

/-- One more line. -/
theorem Told.step {v : Visit} {st : State} (h : Told full lines v.before.state)
    (hmark : st.mark full = v.markAfter full)
    (hfresh : v.places full → v.before.state.isPlainName full = false)
    (hplain : v.before.state.isPlainName full = true → st.isPlainName full = true) :
    Told full (lines ++ [v]) st := by
  cases hfound : (v.before.state.mark full).exported? with
  | some flag =>
    -- The name is a label already, and the line can do no more than export it.
    have hafter := exported?_markAfter_of_some hfound
    rw [← hmark] at hafter
    have hnot : ¬ v.places full := fun hplaces =>
      absurd ((places_iff.1 hplaces).1.symm.trans hfound) (by simp)
    refine ⟨fun flag' hflag => ?_, fun hnone => ?_, fun hnone => ?_⟩
    · obtain rfl := Option.some.inj (hafter.symm.trans hflag)
      rw [saysExported_concat, Bool.or_eq_true, decide_eq_true_eq, h.label flag hfound]
      simp only [hnot, false_and, or_false]
    · exact absurd (hafter.symm.trans hnone) (by simp)
    · exact absurd (hafter.symm.trans hnone) (by simp)
  | none =>
    by_cases hplaces : v.places full
    · -- The label is new: it takes over all requests so far.
      have hafter := exported?_markAfter_of_places hplaces
      rw [← hmark] at hafter
      have hnever : ¬ ∃ u ∈ lines, u.places full ∧ u.hasDoubleColon = true := by
        rintro ⟨u, hu, hplaced, -⟩
        exact h.unplaced hfound u hu hplaced
      refine ⟨fun flag hflag => ?_, fun hnone => ?_, fun hnone => ?_⟩
      · obtain rfl := Option.some.inj (hafter.symm.trans hflag)
        rw [saysExported_concat, SaysExported, Bool.or_eq_true, Bool.or_eq_true,
          decide_eq_true_eq, h.waiting hfound (hfresh hplaces)]
        simp only [hnever, hplaces, false_or, true_and]
        rw [or_comm (a := v.hasDoubleColon = true)]
      · exact absurd (hafter.symm.trans hnone) (by simp)
      · exact absurd (hafter.symm.trans hnone) (by simp)
    · obtain ⟨hafter, hpending⟩ := markAfter_of_unplaced hfound hplaces
      rw [← hmark] at hafter hpending
      refine ⟨fun flag hflag => ?_, fun _ u hu => ?_, fun _ hfalse => ?_⟩
      · exact absurd (hafter.symm.trans hflag) (by simp)
      · rcases List.mem_append.1 hu with hu | hu
        · exact h.unplaced hfound u hu
        · rwa [List.mem_singleton.1 hu]
      · have hbefore : v.before.state.isPlainName full = false := by
          cases hp : v.before.state.isPlainName full with
          | false => rfl
          | true => exact absurd (hplain hp) (by simp [hfalse])
        rw [hpending hbefore, Bool.or_eq_true, decide_eq_true_eq, exists_mem_concat,
          h.waiting hfound hbefore]

end Told

theorem mark_expansionOf? {line : Nat} {text : String} {asm : Assembler} {x : Expansion}
    (hx : expansionOf? line text asm = some x) :
    x.opened.state.mark = (runLine none line text asm).state.mark ∧
      ∀ a, (x.close a).state.mark = a.state.mark := by
  obtain ⟨⟨parsed, asm'⟩, hp, hx⟩ := Option.bind_eq_some_iff.1 hx
  rw [runLine_of_parsed? none hp]
  exact asm'.mark_expansion? hx

/-- Along whole runs without `PURGE`, the mark of a name is what the lines say. -/
theorem compositional_told {full : String} (hroot : Rooted full) :
    Compositional fun _ a ms b => (∀ v ∈ begun ms, v.word? ≠ some .purge) →
      ∀ lines, Told full lines a.state → Told full (lines ++ begun ms) b.state where
  nil _ a _ lines ha := by
    rw [begun_nil, List.append_nil]
    exact ha
  append hab hbc hpurge lines ha := by
    rw [begun_append, List.forall_mem_append] at hpurge
    rw [begun_append, ← List.append_assoc]
    exact hbc hpurge.2 _ (hab hpurge.1 lines ha)
  plain v hv hpurge lines ha := by
    rw [begun_around, begun_nil] at hpurge ⊢
    have hword := hpurge v List.mem_cons_self
    obtain ⟨hmark, hfresh⟩ := mark_visit hroot hword
    rw [Visit.after_eq_runLine hv]
    exact ha.step hmark hfresh (State.isPlainName_of_changes hword (changes_visit v))
  expanded v x n ms b _ hx hafter hb hpurge lines ha := by
    rw [begun_around, List.forall_mem_cons] at hpurge
    obtain ⟨hmark, hfresh⟩ := mark_visit hroot hpurge.1
    obtain ⟨hopened, hclosed⟩ := mark_expansionOf? hx
    obtain ⟨hchanges, hstores⟩ := changes_expansionOf? hx
    have hopen : Told full (lines ++ [v]) x.opened.state := by
      refine ha.step ?_ hfresh (State.isPlainName_of_changes (by simp) hchanges)
      rw [hopened]
      exact hmark
    have hbody := hb hpurge.2 _ hopen
    rw [begun_around, List.append_cons, hafter]
    refine hbody.of_mark (hclosed b) fun hp => ?_
    obtain ⟨k, hk, hhas⟩ := State.isPlainName_iff.1 hp
    exact State.isPlainName_iff.2 ⟨k, hk, hstores b ▸ hhas⟩
  unread _ a file _ _ lines ha := by
    rw [begun_nil, List.append_nil]
    exact ha.of_mark rfl fun h => h
  range hb hpurge lines ha :=
    (hb hpurge lines (ha.of_mark rfl fun h => h)).of_mark rfl fun h => h
  file hb hpurge lines ha :=
    (hb hpurge lines (ha.of_mark rfl fun h => h)).of_mark rfl fun h => h
  load _ a files name text _ lines ha := by
    rw [begun_nil, List.append_nil]
    exact ha.of_mark rfl fun h => h

/-- A label that a line of a run places does not start with a point. -/
theorem rooted_of_places {config : Config} {files : FileStore} {sources : List Source} {v : Visit}
    (hv : v ∈ begun ((new config files).historyOf sources)) {full : String}
    (h : v.places full) : Rooted full := by
  have hkept : Kept (fun _ => True) fun a b =>
      a.state.stores.LabelsRooted → b.state.stores.LabelsRooted :=
    kept_of_changes (Q := fun a b => a.LabelsRooted → b.LabelsRooted) (fun _ h => h)
      (fun h h' ha => h' (h ha)) (fun h ha => ha.of_change h) fun _ h ha => ha.of_change h
  have hbefore : v.before.state.stores.LabelsRooted := by
    obtain ⟨m, hm, hvisit⟩ := List.mem_filterMap.1 hv
    have hreached : m.asm ∈ (new config files).reached sources :=
      List.mem_cons_of_mem _ (List.mem_append_left _ (List.mem_map.2 ⟨m, hm, rfl⟩))
    have hasm := hkept.holds_reached (P := fun a => a.state.stores.LabelsRooted) sources
      (labelsRooted_new config files) (fun _ _ => trivial) m.asm hreached
    obtain ⟨visit, done⟩ := m
    cases done with
    | true => exact absurd hvisit (by simp)
    | false =>
      obtain rfl : visit = v := Option.some.inj hvisit
      exact hasm
  have hafter := of_changes (Q := fun a b => a.LabelsRooted → b.LabelsRooted) (fun _ h => h)
    (fun h h' ha => h' (h ha)) (fun h ha => ha.of_change h) (changes_visit v) hbefore
  exact hafter.labels full h.2

end Assembler

/-- No two symbols of a table have the same name. -/
theorem Indexed.eq_of_name {symbols : Table Symbol} (h : Indexed symbols) {s t : Symbol}
    (hs : s ∈ symbols.values) (ht : t ∈ symbols.values) (hname : s.name = t.name) : s = t := by
  have hentry : ∀ u ∈ symbols.values, (u.name, u) ∈ symbols.entries := by
    intro u hu
    obtain ⟨⟨key, u'⟩, hmem, rfl⟩ := List.mem_map.1 hu
    obtain ⟨i, hi⟩ := List.getElem?_of_mem hmem
    obtain ⟨-, rfl⟩ := h.at_position i key u' hi
    exact hmem
  have hpair := List.inj_on_of_nodup_map h.nodup (hentry s hs) (hentry t ht) hname
  exact congrArg Prod.snd hpair

namespace Assembler

theorem indexed_finish {asm : Assembler} (h : SymbolsKept asm.state.layout) :
    Indexed (finalState asm.state).symbols := by
  let reported : State := { asm.state.record (finalReports asm.state) with pendingExports := [] }
  obtain ⟨openLabel, labels, hclose, -, -⟩ := reported.closeLabel_footprint
  have hsymbols : reported.closeLabel.symbols = asm.state.symbols := by
    rw [hclose]
    rfl
  apply State.indexed_syncAll reported.closeLabel reported.closeLabel.labels.entries
  rw [hsymbols]
  exact h.indexed

/-- **Whether a label is exported does not depend on the order of lines.** In every run without
`PURGE`, each label that a line places has one symbol in the object. The symbol is exported if a
double colon stands behind the label, or if some `EXPORT` or `GLOBAL` line, before it or behind it,
has an argument that is the name of the label as it is understood there; else it is local. -/
theorem export_independent_of_order (config : Config) (files : FileStore) (sources : List Source)
    (hpurge : ∀ v ∈ begun ((new config files).historyOf sources), v.word? ≠ some .purge)
    {full : String} (hplaced : ∃ v ∈ begun ((new config files).historyOf sources), v.places full) :
    ∃ s ∈ ((new config files).runAll sources).finish.symbols, s.name = full ∧
      (∀ t ∈ ((new config files).runAll sources).finish.symbols, t.name = full → t = s) ∧
      (s.kind = .exported ↔
        SaysExported (begun ((new config files).historyOf sources)) full) ∧
      (s.kind = .localOnly ↔
        ¬ SaysExported (begun ((new config files).historyOf sources)) full) := by
  obtain ⟨v, hv, hplaces⟩ := hplaced
  have hroot := rooted_of_places hv hplaces
  have hstart : Told full [] (new config files).state := by
    refine ⟨fun flag hflag => absurd hflag ?_, fun _ u hu => absurd hu (by simp), fun _ _ => ?_⟩
    · simp [new, State.ofConfig, State.mark, Table.get?]
    · simp [new, State.ofConfig, State.mark]
  have htold := (compositional_told hroot).of_sources sources _ hpurge [] hstart
  rw [List.nil_append] at htold
  have hkept : Kept (fun _ => True) fun a b =>
      SymbolsKept a.state.layout → SymbolsKept b.state.layout :=
    kept_of_layout (Q := fun a b => SymbolsKept a → SymbolsKept b) (fun _ h => h)
      (fun h h' ha => h' (h ha)) (fun h ha => ha.edit h) fun _ _ _ h ha => ha.switch h
  have hsymbols := hkept.holds_reached (P := fun a => SymbolsKept a.state.layout) sources
    (symbolsKept_new config files) (fun _ _ => trivial) _
    (show (new config files).runAll sources ∈ (new config files).reached sources by simp [reached])
  cases hlabel : ((new config files).runAll sources).state.labels.get? full with
  | none =>
    have hnone : (((new config files).runAll sources).state.mark full).exported? = none := by
      rw [State.mark, hlabel]
      rfl
    exact absurd hplaces (htold.unplaced hnone v hv)
  | some label =>
    have hflag := htold.label label.exported (by rw [State.mark, hlabel]; rfl)
    obtain ⟨s, hs, hname, hkind, -⟩ := (symbolsFinished_finish hsymbols).of_label full label hlabel
    refine ⟨s, hs, hname, fun t ht h => ?_, ?_⟩
    · exact (indexed_finish hsymbols).eq_of_name ht hs (h.trans hname.symm)
    · rw [hkind, ← hflag]
      cases label.exported with
      | true => simp
      | false => simp

/-- A label that is exported before it is placed, one that is not exported, one with a double colon
and one that is exported by its local name. -/
def exportingSource : Source :=
  .text "a" " GLOBAL main\n SECTION \"a\",ROM0\nmain:\n.loop:\nlast::\n.end:\n EXPORT .end\n"

theorem export_independent_of_order_exportingSource :
    (∀ v ∈ begun ((new {} (.memory {})).historyOf [exportingSource]), v.word? ≠ some .purge) ∧
      (∃ s ∈ ((new {} (.memory {})).runAll [exportingSource]).finish.symbols,
        s.name = "main" ∧ s.kind = .exported) ∧
      (∃ s ∈ ((new {} (.memory {})).runAll [exportingSource]).finish.symbols,
        s.name = "main.loop" ∧ s.kind = .localOnly) ∧
      (∃ s ∈ ((new {} (.memory {})).runAll [exportingSource]).finish.symbols,
        s.name = "last" ∧ s.kind = .exported) ∧
      ∃ s ∈ ((new {} (.memory {})).runAll [exportingSource]).finish.symbols,
        s.name = "last.end" ∧ s.kind = .exported := by
  have hlines : (∀ v ∈ begun ((new {} (.memory {})).historyOf [exportingSource]),
        v.word? ≠ some .purge) ∧
      ∀ full ∈ ["main", "main.loop", "last", "last.end"],
        (∃ v ∈ begun ((new {} (.memory {})).historyOf [exportingSource]), v.places full) ∧
          (SaysExported (begun ((new {} (.memory {})).historyOf [exportingSource])) full ↔
            full ≠ "main.loop") := by
    decide +kernel
  have hkinds : ∀ full ∈ ["main", "main.loop", "last", "last.end"],
      ∃ s ∈ ((new {} (.memory {})).runAll [exportingSource]).finish.symbols, s.name = full ∧
        (s.kind = .exported ↔ full ≠ "main.loop") ∧
          (s.kind = .localOnly ↔ ¬ full ≠ "main.loop") := by
    intro full hfull
    obtain ⟨hplaced, hsays⟩ := hlines.2 full hfull
    obtain ⟨s, hs, hname, -, hexported, hlocal⟩ :=
      export_independent_of_order {} (.memory {}) [exportingSource] hlines.1 hplaced
    exact ⟨s, hs, hname, hexported.trans hsays, hlocal.trans (not_congr hsays)⟩
  refine ⟨hlines.1, ?_, ?_, ?_, ?_⟩
  · obtain ⟨s, hs, hname, hkind, -⟩ := hkinds "main" (by simp)
    exact ⟨s, hs, hname, hkind.2 (by simp)⟩
  · obtain ⟨s, hs, hname, -, hkind⟩ := hkinds "main.loop" (by simp)
    exact ⟨s, hs, hname, hkind.2 (by simp)⟩
  · obtain ⟨s, hs, hname, hkind, -⟩ := hkinds "last" (by simp)
    exact ⟨s, hs, hname, hkind.2 (by simp)⟩
  · obtain ⟨s, hs, hname, hkind, -⟩ := hkinds "last.end" (by simp)
    exact ⟨s, hs, hname, hkind.2 (by simp)⟩

end Assembler

end Sm83Asm
