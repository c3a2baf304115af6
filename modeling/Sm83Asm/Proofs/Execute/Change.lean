import Sm83Asm.Proofs.Layout.Edit

set_option autoImplicit false

/-!
# What an operation changes for later lines

The stores of a state are what later lines can look up or go on with: the tables of names, the
sections with their bytes, symbols, patches, diagnostics and printed text, and the scope that is
open. This module says once what can become of them (`Change`), together with the keyword that is
needed for it where there is one, and gives the changes that each operation makes.
-/

namespace Sm83Asm

/-- The part of a state that later lines can look up or go on with. -/
structure Stores where
  labels : Table Label
  numbers : Table NumberEquate
  strings : Table StringEquate
  vars : Table Variable
  macros : Table Macro
  sections : Table Section
  symbols : Table Symbol
  patches : Array Patch
  diagnostics : Array Diagnostic
  printed : String
  current : Option String
  unions : List Union
  globalLabel : Option String
  savedScopes : List SectionScope

/-- The stores of a state. -/
def State.stores (st : State) : Stores :=
  { labels := st.labels
    numbers := st.numbers
    strings := st.strings
    vars := st.vars
    macros := st.macros
    sections := st.sections
    symbols := st.symbols
    patches := st.patches
    diagnostics := st.diagnostics
    printed := st.printed
    current := st.current
    unions := st.unions
    globalLabel := st.globalLabel
    savedScopes := st.savedScopes }

/-- A label that may have grown and may have been exported. -/
structure Label.Kept (a b : Label) : Prop where
  file : b.file = a.file
  startLine : b.startLine = a.startLine
  place : b.place = a.place
  offset : b.offset = a.offset
  exported : a.exported = true → b.exported = true

theorem Label.Kept.refl (a : Label) : a.Kept a := ⟨rfl, rfl, rfl, rfl, id⟩

/-- What a label keeps in two steps it keeps in one. -/
theorem Label.Kept.trans {a b c : Label} (h : a.Kept b) (h' : b.Kept c) : a.Kept c where
  file := h'.file.trans h.file
  startLine := h'.startLine.trans h.startLine
  place := h'.place.trans h.place
  offset := h'.offset.trans h.offset
  exported := h'.exported ∘ h.exported

namespace Stores

/-- The full name of a label: one that starts with a point belongs to the global label. -/
def qualify (s : Stores) (name : String) : Option String :=
  match name.toList with
  | '.' :: _ => s.globalLabel.map (· ++ name)
  | _ => some name

/-- The name is in none of the tables, nor is it, in full, the name of a label. -/
def Fresh (s : Stores) (name : String) : Prop :=
  name ∉ s.numbers.keys ∧ name ∉ s.strings.keys ∧ name ∉ s.vars.keys ∧ name ∉ s.macros.keys ∧
    ∀ full ∈ s.qualify name, full ∉ s.labels.keys

/-- Changes the bytes of a section. -/
def mapBytes (s : Stores) (place : String) (f : Array UInt8 → Array UInt8) : Stores :=
  { s with sections := s.sections.modify place fun body => { body with bytes := f body.bytes } }

/-- A change that an operation makes, with the keyword of its line. An assignment counts as one
with `SET`. -/
inductive Change (word : Option Keyword) : Stores → Stores → Prop
  | report (s : Stores) (more : Array Diagnostic) :
      Change word s { s with diagnostics := s.diagnostics ++ more }
  | print (s : Stores) (more : String) : Change word s { s with printed := s.printed ++ more }
  | number {s : Stores} {name : String} (entry : NumberEquate) (h : s.Fresh name) :
      Change word s { s with numbers := s.numbers.insert name entry }
  | string {s : Stores} {name : String} (entry : StringEquate) (h : s.Fresh name) :
      Change word s { s with strings := s.strings.insert name entry }
  | macroBody {s : Stores} {name : String} (entry : Macro) (h : s.Fresh name) :
      Change word s { s with macros := s.macros.insert name entry }
  | assign {s : Stores} {name : String} (entry : Variable) (hw : word = some .set)
      (hn : name ∉ s.numbers.keys) (hs : name ∉ s.strings.keys) (hm : name ∉ s.macros.keys) :
      Change word s { s with vars := s.vars.insert name entry }
  | label {s : Stores} {name full : String} (entry : Label) (hname : name ≠ "")
      (hq : s.qualify name = some full) (h : s.Fresh full) (hl : full ∉ s.labels.keys) :
      Change word s
        { s with
          labels := s.labels.insert full entry
          globalLabel := if name.toList.contains '.' then s.globalLabel else some full }
  | relabel (s : Stores) (name : String) {f : Label → Label} (hf : ∀ l : Label, l.Kept (f l)) :
      Change word s { s with labels := s.labels.modify name f }
  | purge (s : Stores) (name : String) (hw : word = some .purge) :
      Change word s
        { s with
          numbers := s.numbers.erase name
          strings := s.strings.erase name
          vars := s.vars.erase name
          macros := s.macros.erase name }
  | purgeLabel (s : Stores) (name : String) (hw : word = some .purge) :
      Change word s { s with labels := s.labels.erase name }
  | emit {s : Stores} {place : String} {symbols : Table Symbol} {new : List Patch}
      (bytes : Array UInt8) (ho : s.current = some place)
      (hs : s.symbols.entries <+: symbols.entries) (hp : ∀ p ∈ new, p.place = place) :
      Change word s
        ({ s with symbols, patches := s.patches ++ new.toArray }.mapBytes place (· ++ bytes))
  | beginUnion (s : Stores) (u : Union) (hw : word = some .union) :
      Change word s { s with unions := u :: s.unions }
  | nextMember {s : Stores} {place : String} {u : Union} {outer : List Union} (u' : Union)
      (hw : word = some .nextu) (ho : s.current = some place) (hu : s.unions = u :: outer) :
      Change word s
        ({ s with
            unions := u' :: outer
            patches := s.patches.filter (State.keepsPatch (some place) u.offset) }.mapBytes
          place (·.take u.offset))
  | endUnion {s : Stores} {place : String} {body : Section} {u : Union} {outer : List Union}
      {size : Nat} (pad : UInt8) (hw : word = some .endu) (ho : s.current = some place)
      (hbody : s.sections.get? place = some body) (hu : s.unions = u :: outer)
      (hsize : body.bytes.size ≤ size) :
      Change word s
        ({ s with unions := outer }.mapBytes place fun bytes => State.resize bytes size pad)
  | enter (s : Stores) (name : String) (hw : word = some .sectionStart) :
      Change word s { s with current := some name }
  | create {s : Stores} {declared : Section} (hw : word = some .sectionStart)
      (h : s.sections.get? declared.name = none) :
      Change word s { s with sections := s.sections.insert declared.name declared }
  | push (s : Stores) (hw : word = some .pushs) :
      Change word s
        { s with
          savedScopes := ⟨s.current, s.unions, s.globalLabel⟩ :: s.savedScopes
          current := none
          unions := []
          globalLabel := none }
  | pop {s : Stores} {scope : SectionScope} {outer : List SectionScope} (hw : word = some .pops)
      (h : s.savedScopes = scope :: outer) :
      Change word s
        { s with
          savedScopes := outer
          current := scope.current
          unions := scope.unions
          globalLabel := scope.globalLabel }

/-- Some changes, one after the other. -/
abbrev Changes (word : Option Keyword) : Stores → Stores → Prop :=
  Relation.ReflTransGen (Change word)

/-- What holds over every change holds over some of them. -/
theorem of_changes {word : Option Keyword} {Q : Stores → Stores → Prop} (hrefl : ∀ a, Q a a)
    (htrans : ∀ {a b c}, Q a b → Q b c → Q a c) (hchange : ∀ {a b}, Change word a b → Q a b)
    {a b : Stores} (h : Changes word a b) : Q a b := by
  induction h with
  | refl => exact hrefl a
  | tail _ h ih => exact htrans ih (hchange h)

/-- What no change changes is the same after some of them. -/
theorem eq_of_changes {α : Type} {word : Option Keyword} {f : Stores → α}
    (hchange : ∀ {a b}, Change word a b → f b = f a) {a b : Stores} (h : Changes word a b) :
    f b = f a :=
  of_changes (Q := fun a b => f b = f a) (fun _ => rfl) (fun h h' => h'.trans h) hchange h

end Stores

open Stores

namespace State

variable (st : State) {w : Option Keyword}

/-- A name that is not defined stands in none of the tables. -/
theorem fresh_of_isDefined {name : String} (h : st.isDefined name = false) :
    st.stores.Fresh name := by
  simp only [isDefined, Bool.or_eq_false_iff] at h
  obtain ⟨⟨⟨⟨hn, hs⟩, hv⟩, hm⟩, hl⟩ := h
  have absent : ∀ {α : Type} {t : Table α} {key : String}, t.contains key = false →
      key ∉ t.keys := fun h hmem => by
    rw [(Table.contains_iff _ _).2 hmem] at h
    exact absurd h (by simp)
  refine ⟨absent hn, absent hs, absent hv, absent hm, fun full hfull => absent ?_⟩
  have hq : st.qualify name = some full := hfull
  rwa [hq] at hl

/-! ## Reports and expressions -/

/-- Reports are added at the end. -/
theorem changes_record (reports : List Report) :
    Changes w st.stores (st.record reports).stores :=
  .single (.report _ _)

theorem changes_fault (cause : EvaluationCause) (token : Token) :
    Changes w st.stores (st.fault cause token).stores :=
  st.changes_record _

/-- Evaluating adds reports at most. -/
theorem changes_number (e : Expr) : Changes w st.stores (st.number e).2.stores :=
  .single (.report _ _)

theorem changes_text (e : Expr) : Changes w st.stores (st.text e).2.stores :=
  .single (.report _ _)

theorem changes_numberD (default : Int32) (e : Option Expr) :
    Changes w st.stores (st.numberD default e).2.stores := by
  cases e with
  | none => exact .refl
  | some e => exact st.changes_number e

theorem changes_soleNumber (keyword : Keyword) (word : Token) (args : List Expr) :
    Changes w st.stores (st.soleNumber keyword word args).2.stores := by
  unfold soleNumber
  split
  · exact st.changes_number _
  · exact st.changes_fault _ _

/-! ## Names -/

/-- A name that is new stays so while an expression is evaluated. -/
theorem changes_withNewName (keyword : Keyword) (label : Option LabelDef) (word : Token)
    {k : String → State} (hk : ∀ name, st.stores.Fresh name → Changes w st.stores (k name).stores) :
    Changes w st.stores (st.withNewName keyword label word k).stores := by
  rcases st.withNewName_cases keyword label word k with ⟨cause, h⟩ | ⟨name, hnew, h⟩
  · rw [h]
    exact st.changes_fault _ _
  · rw [h]
    exact hk name (st.fresh_of_isDefined hnew)

/-- `EQU` gives a new name a number, unless the name is taken. -/
theorem changes_equ (label : Option LabelDef) (word : Token) (e : Expr) :
    Changes w st.stores (st.equ label word e).stores := by
  refine st.changes_withNewName _ _ _ fun name hnew => ?_
  have hnew' : (st.number e).2.stores.Fresh name := hnew
  exact (st.changes_number e).tail (.number _ hnew')

/-- `EQUS` gives a new name a text, unless the name is taken. -/
theorem changes_equs (label : Option LabelDef) (word : Token) (e : Expr) :
    Changes w st.stores (st.equs label word e).stores := by
  refine st.changes_withNewName _ _ _ fun name hnew => ?_
  have hnew' : (st.text e).2.stores.Fresh name := hnew
  exact (st.changes_text e).tail (.string _ hnew')

/-- A field is a new name for a number. -/
theorem changes_field (keyword : Keyword) (label : Option LabelDef) (word : Token)
    (count : Option Expr) : Changes w st.stores (st.field keyword label word count).stores := by
  refine st.changes_withNewName _ _ _ fun name hnew => ?_
  have hnew' : (st.numberD 1 count).2.stores.Fresh name := by
    obtain ⟨_, _, h⟩ := st.numberD_footprint 1 count
    rw [h]
    exact hnew
  exact (st.changes_numberD 1 count).tail (.number _ hnew')

/-- `SET` sets a variable, which it may add. -/
theorem changes_assign (label : Option LabelDef) (word : Token) (e : Expr)
    (hw : w = some .set) : Changes w st.stores (st.assign label word e).stores := by
  unfold assign
  split
  · exact st.changes_fault _ _
  · rename_i label
    dsimp only
    split
    · exact st.changes_fault _ _
    · rename_i hnew
      simp only [Bool.or_eq_true, not_or, Table.contains_iff] at hnew
      exact (st.changes_number e).tail (.assign _ hw hnew.1.1 hnew.1.2 hnew.2)

/-- The character map is none of the stores. -/
theorem changes_mapText (key value : Expr) :
    Changes w st.stores (st.mapText key value).stores := by
  have hargs := (st.changes_text (w := w) key).trans ((st.text key).2.changes_number value)
  unfold mapText
  dsimp only
  split
  · exact hargs.trans (changes_fault _ _ _)
  · split
    · exact hargs.trans (changes_fault _ _ _)
    · exact hargs

/-! ## Labels -/

/-- The end of a label changes its size. -/
theorem changes_closeLabel : Changes w st.stores st.closeLabel.stores := by
  unfold closeLabel
  split
  · exact .refl
  · rename_i name hname
    have hclose : ∀ f : Label → Label, (∀ l : Label, l.Kept (f l)) → Changes w st.stores
        { st with openLabel := none, labels := st.labels.modify name f }.stores :=
      fun f hf => .single (.relabel st.stores name hf)
    exact hclose _ fun l => ⟨rfl, rfl, rfl, rfl, id⟩

/-- A label is added behind the one that it ends. -/
theorem changes_defineLabel {label : LabelDef} (hname : label.name.text ≠ "") :
    Changes w st.stores (st.defineLabel label).stores := by
  unfold defineLabel
  dsimp only
  split
  · split
    · exact st.changes_fault _ _
    · rename_i full hq
      split
      · exact st.changes_fault _ _
      · rename_i hnew
        simp only [Bool.or_eq_true, not_or] at hnew
        have hfresh := st.fresh_of_isDefined (Bool.eq_false_iff.2 hnew.2)
        have hlabel : full ∉ st.labels.keys := fun h => hnew.1 ((Table.contains_iff _ _).2 h)
        obtain ⟨openLabel, labels, hclose, hkeys, -⟩ := st.closeLabel_footprint
        have hchanges := st.changes_closeLabel (w := w)
        rw [hclose] at hchanges ⊢
        have hfresh' : ({ st with openLabel, labels } : State).stores.Fresh full := by
          refine ⟨hfresh.1, hfresh.2.1, hfresh.2.2.1, hfresh.2.2.2.1, ?_⟩
          show ∀ other ∈ st.stores.qualify full, other ∉ labels.keys
          rw [hkeys]
          exact hfresh.2.2.2.2
        have hlabel' : full ∉ labels.keys := hkeys ▸ hlabel
        exact hchanges.tail (.label _ hname hq hfresh' hlabel')
  · exact st.changes_fault _ _

/-- Without a label nothing changes. -/
theorem changes_defineLabel? {label : Option LabelDef}
    (hname : ∀ l ∈ label, l.name.text ≠ "") :
    Changes w st.stores (st.defineLabel? label).stores := by
  cases label with
  | none => exact .refl
  | some label => exact st.changes_defineLabel (hname label rfl)

/-- Exporting a label marks it, and leaves other names for later. -/
theorem changes_exportOne (e : Expr) : Changes w st.stores (st.exportOne e).stores := by
  unfold exportOne
  split
  · split
    · exact st.changes_fault _ _
    · split
      · exact .single (.relabel (f := fun l => { l with exported := true }) _ _
          fun l => ⟨rfl, rfl, rfl, rfl, fun _ => rfl⟩)
      · split
        · exact .refl
        · exact .refl
  · exact st.changes_fault _ _

theorem changes_exportAll (names : List Expr) :
    Changes w st.stores (st.exportAll names).stores := by
  unfold exportAll
  induction names generalizing st with
  | nil => exact .refl
  | cons e es ih => exact (st.changes_exportOne e).trans (ih _)

theorem changes_purgeOne (e : Expr) (hw : w = some .purge) :
    Changes w st.stores (st.purgeOne e).stores := by
  have herase := Change.purge st.stores e.text hw
  unfold purgeOne
  dsimp only
  split
  · split
    · exact .single herase
    · exact .tail (.single herase) (.report _ _)
  · split
    · exact .tail (.single herase) (.report _ _)
    · exact .tail (.single herase) (.purgeLabel _ _ hw)

/-- `PURGE` removes names one after the other. -/
theorem changes_purge (names : List Expr) (hw : w = some .purge) :
    Changes w st.stores (st.purge names).stores := by
  unfold purge
  induction names generalizing st with
  | nil => exact .refl
  | cons e es ih => exact (st.changes_purgeOne e hw).trans (ih _)

/-! ## Blocks -/

/-- Conditions add reports at most. -/
theorem changes_beginIf (word : Token) (args : List Expr) :
    Changes w st.stores (st.beginIf word args).stores := by
  unfold beginIf
  split
  · exact st.changes_soleNumber _ _ _
  · exact .refl

theorem changes_nextIf (word : Token) (args : List Expr) :
    Changes w st.stores (st.nextIf word args).stores := by
  unfold nextIf
  split
  · exact st.changes_fault _ _
  · split
    · exact .refl
    · exact st.changes_soleNumber _ _ _

theorem changes_lastIf (word : Token) : Changes w st.stores (st.lastIf word).stores := by
  unfold lastIf
  split
  · exact st.changes_fault _ _
  · exact .refl

theorem changes_endIf (word : Token) : Changes w st.stores (st.endIf word).stores := by
  unfold endIf
  split
  · exact st.changes_fault _ _
  · exact .refl

theorem changes_beginMacro (label : Option LabelDef) (word : Token) (args : List Expr) :
    Changes w st.stores (st.beginMacro label word args).stores := by
  unfold beginMacro
  split
  · exact st.changes_fault _ _
  · exact .refl

/-- The end of a macro adds its name, unless the name is taken. -/
theorem changes_endMacro (word : Token) : Changes w st.stores (st.endMacro word).stores := by
  unfold endMacro
  split
  · exact st.changes_fault _ _
  · exact .refl
  · rename_i definition hdefs
    dsimp only
    split
    · exact changes_fault _ _ _
    · rename_i hnew
      have hfresh := fresh_of_isDefined { st with macroDefs := [] } (Bool.eq_false_iff.2 hnew)
      exact .single (.macroBody _ hfresh)

theorem changes_shift (word : Token) (count : Option Expr) :
    Changes w st.stores (st.shift word count).stores := by
  have hcount := st.changes_numberD (w := w) 1 count
  unfold shift
  dsimp only
  split
  · exact hcount.trans (changes_fault _ _ _)
  · split
    · exact hcount.trans (changes_fault _ _ _)
    · exact hcount

/-- The count of a repeat adds reports at most. -/
theorem changes_beginRepeat (word : Token) (args : List Expr) :
    Changes w st.stores (st.beginRepeat word args).stores := by
  unfold beginRepeat
  split
  · have hcount := st.changes_soleNumber (w := w) .rept word args
    dsimp only
    split
    · exact hcount.trans (changes_fault _ _ _)
    · exact hcount
  · exact .refl

/-! ## Options and messages -/

/-- Options are none of the stores. -/
theorem changes_changeOptions (args : List Token) :
    Changes w st.stores (st.changeOptions args).stores := by
  unfold changeOptions
  induction args generalizing st with
  | nil => exact .refl
  | cons arg args ih =>
    have hone : Changes w st.stores (st.changeOption arg).stores := by
      unfold changeOption
      split
      · exact .refl
      · exact st.changes_fault _ _
    exact hone.trans (ih _)

theorem changes_pushOptions (args : List Token) :
    Changes w st.stores (st.pushOptions args).stores :=
  changes_changeOptions { st with savedOptions := st.options :: st.savedOptions } args

theorem changes_popOptions (word : Token) : Changes w st.stores (st.popOptions word).stores := by
  unfold popOptions
  split
  · exact st.changes_fault _ _
  · exact .refl

/-- Printing adds to what was printed. -/
theorem changes_printValue (keyword : Keyword) (e : Expr) :
    Changes w st.stores (st.printValue keyword e).stores := by
  unfold printValue
  split
  · exact (st.changes_text e).tail (.print _ _)
  · exact (st.changes_number e).tail (.print _ _)
  · exact (st.changes_number e).tail (.print _ _)
  · exact (st.changes_number e).tail (.print _ _)

/-- A message of the source is added as a report. -/
theorem changes_userMessage (keyword : Keyword) (word : Token) (e : Expr) :
    Changes w st.stores (st.userMessage keyword word e).stores :=
  (st.changes_text e).trans (changes_fault _ _ _)

/-! ## Bytes -/

/-- The bytes of the open section are the bytes of its entry in the stores. -/
theorem stores_mapBytes {place : String} (hc : st.current = some place)
    (f : Array UInt8 → Array UInt8) : (st.mapBytes f).stores = st.stores.mapBytes place f := by
  unfold State.mapBytes
  split
  · rename_i name hname
    obtain rfl : name = place := Option.some.inj (hname.symm.trans hc)
    rfl
  · rename_i hnone
    exact absurd (hc.symm.trans hnone) (by simp)

/-- Placing no bytes changes nothing. -/
theorem emit_empty : st.emit #[] = st := by
  unfold emit State.mapBytes
  split
  · simp only [Array.append_empty, Table.modify_eq_self fun _ => rfl]
  · rfl

/-- Placing bytes that come with their patches. -/
theorem changes_emitting {α : Type} {place : String} {start : Nat} (hc : st.current = some place)
    {x : Act Emission α} {render : α → List UInt8} (hx : st.Emits place start render x) :
    Changes w st.stores ((st.emitting x).2.emit (render (st.emitting x).1).toArray).stores := by
  obtain ⟨hgrows, new, hpatches, hplaced, -⟩ := hx st.emission
  have harray : (st.emitting x).2.patches = st.patches ++ new.toArray := by
    apply Array.toList_inj.1
    rw [Array.toList_append]
    exact hpatches
  have hstores : (st.emitting x).2.stores =
      { st.stores with
        diagnostics := (st.emitting x).2.diagnostics
        symbols := (st.emitting x).2.symbols
        patches := st.patches ++ new.toArray } := by
    rw [← harray]
    rfl
  rw [emit, stores_mapBytes _ (show (st.emitting x).2.current = some place from hc), hstores]
  -- The reports come first, then the bytes with their patches.
  exact .tail (.single (.report st.stores _))
    (.emit _ hc hgrows.entries_prefix fun p hp => (hplaced.covers p hp).place_eq)

/-- Placing bytes that need no patches. -/
theorem changes_emit {place : String} (hc : st.current = some place) (bytes : Array UInt8) :
    Changes w st.stores (st.emit bytes).stores := by
  have hemit : Change w st.stores
      ({ st.stores with patches := st.patches ++ #[] }.mapBytes place (· ++ bytes)) :=
    .emit bytes hc (List.prefix_refl _) (List.forall_mem_nil _)
  rw [Array.append_empty] at hemit
  rw [emit, st.stores_mapBytes hc]
  exact .single hemit

/-- Data adds bytes to the open section, and the patches and symbols that go with them. -/
theorem changes_data (keyword : Keyword) (word : Token) (items : List Expr) :
    Changes w st.stores (st.data keyword word items).stores := by
  unfold data
  cases hs : st.offset? with
  | none => exact st.changes_fault _ _
  | some start =>
    obtain ⟨place, body, ho, -⟩ := st.isOpen_of_offset? hs
    exact st.changes_emitting ho.1 (st.scope.emits_dataItems ho.1 keyword items start)

/-- Reserved bytes are added to the open section. -/
theorem changes_reserve (word : Token) (count : Expr) (fill : Option Expr) :
    Changes w st.stores (st.reserve word count fill).stores := by
  unfold reserve
  cases hs : st.offset? with
  | none => exact st.changes_fault _ _
  | some start =>
    obtain ⟨place, body, ho, -⟩ := st.isOpen_of_offset? hs
    let default := Int32.ofNat (st.number count).2.options.pad.toNat
    have hargs : Changes w st.stores ((st.number count).2.numberD default fill).2.stores :=
      (st.changes_number count).trans ((st.number count).2.changes_numberD default fill)
    have hc : ((st.number count).2.numberD default fill).2.current = some place := by
      obtain ⟨_, _, h⟩ := (st.number count).2.numberD_footprint default fill
      rw [h]
      exact ho.1
    dsimp only
    split
    · exact hargs.trans (changes_fault _ _ _)
    · split
      · exact hargs.trans (changes_fault _ _ _)
      · exact hargs.trans (changes_emit _ hc _)

/-! ## Unions -/

/-- A union is opened where the section ends. -/
theorem changes_beginUnion (word : Token) (hw : w = some .union) :
    Changes w st.stores (st.beginUnion word).stores := by
  unfold beginUnion
  split
  · exact st.changes_fault _ _
  · exact .single (.beginUnion _ _ hw)

/-- The next member takes the bytes of the last one away. -/
theorem changes_nextMember (word : Token) (hw : w = some .nextu) :
    Changes w st.stores (st.nextMember word).stores := by
  unfold nextMember
  split
  · exact st.changes_fault _ _
  · rename_i u outer h
    obtain ⟨place, body, inner, ho, hu, rfl⟩ := st.of_countMember? h
    have hchange := Change.nextMember (s := st.stores)
      { inner with length := max inner.length (body.bytes.size - inner.offset) } hw ho.1 hu
    show Changes w st.stores { (st.mapBytes (·.take inner.offset)).stores with
      unions := { inner with length := max inner.length (body.bytes.size - inner.offset) } :: outer
      patches := st.patches.filter (keepsPatch st.current inner.offset) }
    rw [st.stores_mapBytes ho.1, show st.current = some place from ho.1]
    exact .single hchange

/-- The end of a union cuts nothing off: it is at least as long as the last member. -/
theorem changes_endUnion (word : Token) (hw : w = some .endu) :
    Changes w st.stores (st.endUnion word).stores := by
  unfold endUnion
  split
  · exact st.changes_fault _ _
  · rename_i u outer h
    obtain ⟨place, body, inner, ho, hu, rfl⟩ := st.of_countMember? h
    have hsize : body.bytes.size ≤
        inner.offset + max inner.length (body.bytes.size - inner.offset) := by
      omega
    have hchange := Change.endUnion (s := st.stores) st.options.pad hw ho.1 ho.2 hu hsize
    show Changes w st.stores
      { (st.mapBytes (resize · _ st.options.pad)).stores with unions := outer }
    rw [st.stores_mapBytes ho.1]
    exact .single hchange

/-! ## Sections -/

theorem changes_readAttribute (region : Region) (attrs : Attributes) (e : Expr) :
    Changes w st.stores (st.readAttribute region attrs e).2.stores := by
  unfold readAttribute
  split
  · rename_i t base value
    have hvalue := st.changes_number (w := w) value
    have hfault := fun cause token => hvalue.trans ((st.number value).2.changes_fault cause token)
    dsimp only
    split
    · split
      · exact hfault _ _
      · split
        · exact hvalue
        · exact hfault _ _
    · split
      · exact hvalue
      · exact hfault _ _
    · exact hfault _ _
  · exact st.changes_fault _ _

/-- Attributes of a section add reports at most. -/
theorem changes_readAttributes (region : Region) (attrs : Attributes) (es : List Expr) :
    Changes w st.stores (st.readAttributes region attrs es).2.stores := by
  induction es generalizing st attrs with
  | nil => exact .refl
  | cons e es ih =>
    have hone := st.changes_readAttribute (w := w) region attrs e
    unfold readAttributes
    split
    · rename_i st' h
      rw [h] at hone
      exact hone
    · rename_i attrs' st' h
      rw [h] at hone
      exact hone.trans (ih _ _)

theorem changes_fixedAddress (region : Region) (e : Option Expr) :
    Changes w st.stores (st.fixedAddress region e).2.stores := by
  unfold fixedAddress
  split
  · exact .refl
  · dsimp only
    split
    · exact st.changes_number _
    · exact (st.changes_number _).trans (changes_fault _ _ _)

/-- A section is created, or opened again as it was. -/
theorem changes_openSection (declared : Section) (token : Token) (hw : w = some .sectionStart) :
    Changes w st.stores (st.openSection declared token).stores := by
  unfold openSection
  dsimp only
  split
  · split
    · exact st.changes_closeLabel.tail (.enter _ _ hw)
    · exact st.changes_fault _ _
  · rename_i hnew
    have hcreate := Change.create (s := st.stores) hw hnew
    exact (Relation.ReflTransGen.single hcreate).trans
      ((changes_closeLabel
        { st with sections := st.sections.insert declared.name declared }).tail (.enter _ _ hw))

/-- `SECTION` adds reports, and then opens the section. -/
theorem changes_beginSection (name kind : Expr) (attrs : List Expr)
    (hw : w = some .sectionStart) :
    Changes w st.stores (st.beginSection name kind attrs).stores := by
  have htitle := st.changes_text (w := w) name
  unfold beginSection
  dsimp only
  split
  · exact htitle.trans (changes_fault _ _ _)
  · rename_i region hregion
    have haddress := (st.text name).2.changes_fixedAddress (w := w) region (regionParts kind).2
    split
    · rename_i st' h
      rw [h] at haddress
      exact htitle.trans haddress
    · rename_i address st' h
      rw [h] at haddress
      have hattrs := st'.changes_readAttributes (w := w) region {} attrs
      split
      · rename_i st'' h'
        rw [h'] at hattrs
        exact (htitle.trans haddress).trans hattrs
      · rename_i attributes st'' h'
        rw [h'] at hattrs
        exact ((htitle.trans haddress).trans hattrs).trans (st''.changes_openSection _ _ hw)

/-- Setting a section aside ends its label. -/
theorem changes_pushSection (hw : w = some .pushs) :
    Changes w st.stores st.pushSection.stores :=
  st.changes_closeLabel.tail (.push _ hw)

/-- Taking a section back ends the label before. -/
theorem changes_popSection (word : Token) (hw : w = some .pops) :
    Changes w st.stores (st.popSection word).stores := by
  unfold popSection
  dsimp only
  split
  · exact st.changes_closeLabel.trans (changes_fault _ _ _)
  · rename_i scope outer h
    exact st.changes_closeLabel.tail (.pop hw h)

end State

end Sm83Asm
