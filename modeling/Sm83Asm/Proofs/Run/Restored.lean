import Sm83Asm.Proofs.Execute.OptionStack
import Sm83Asm.Proofs.Layout.UnionHomes
import Sm83Asm.Proofs.Run.Depth
import Sm83Asm.Proofs.Run.Steps

set_option autoImplicit false

/-!
# What was saved is restored

`PUSHS` and `PUSHO` save something on a stack, and `POPS` and `POPO` take it back. Between two such
lines anything may be carried out: macros, repeats, files, further lines of the same kind. From one
moment of a run to the next, a stack grows by one entry, loses one or stays (`StackStep`), and so
entries that lie deep enough are never reached.

Main statements: `SavesOn.restored` for any stack that two keywords move, and
`scopes_and_options_restored` for the two stacks of the assembler.
-/

namespace Sm83Asm

/-! ## Stacks -/

/-- What one step can do to a stack. -/
inductive StackStep {α : Type} : List α → List α → Prop
  | keep (s : List α) : StackStep s s
  | push (x : α) (s : List α) : StackStep s (x :: s)
  | pop (x : α) (s : List α) : StackStep (x :: s) s

namespace StackStep

variable {α : Type}

theorem tail (s : List α) : StackStep s s.tail := by
  cases s with
  | nil => exact keep []
  | cons x s => exact pop x s

/-- A step that leaves a stack high enough does not touch what lies deeper. -/
theorem suffix {base s t : List α} (h : StackStep s t) (hs : base <:+ s)
    (ht : base.length ≤ t.length) : base <:+ t := by
  cases h with
  | keep => exact hs
  | push x => exact hs.trans (List.suffix_cons x s)
  | pop x =>
    -- The entry that is taken off belonged to the base only if nothing lay on it.
    rcases List.suffix_cons_iff.1 hs with rfl | hs
    · exact absurd ht (by simp)
    · exact hs

/-- Steps that never leave a stack too low do not touch what lies deeper. -/
theorem suffix_of_isChain {base s : List α} {later : List (List α)}
    (h : (s :: later).IsChain StackStep) (hs : base <:+ s)
    (hhigh : ∀ t ∈ later, base.length ≤ t.length) : ∀ t ∈ later, base <:+ t := by
  induction later generalizing s with
  | nil => exact fun t ht => absurd ht (by simp)
  | cons next rest ih =>
    obtain ⟨hstep, hrest⟩ := List.isChain_cons_cons.1 h
    rw [List.forall_mem_cons] at hhigh ⊢
    have hnext := hstep.suffix hs hhigh.1
    exact ⟨hnext, ih hrest hnext hhigh.2⟩

end StackStep

namespace Assembler

/-! ## Stacks of the assembler -/

section Stack

variable {α : Type} {f : Assembler → List α} {push pop : Keyword} {entry : Visit → α}

/-- A stack of which one keyword saves something and another one takes it off. No other line
reaches the stack. -/
structure SavesOn (f : Assembler → List α) (push pop : Keyword) (entry : Visit → α) : Prop where
  pushed : ∀ v : Visit, v.word? = some push →
    f (runLine none v.line v.text v.before) = entry v :: f v.before
  popped : ∀ v : Visit, v.word? = some pop →
    f (runLine none v.line v.text v.before) = (f v.before).tail
  kept : ∀ v : Visit, v.word? ≠ some push → v.word? ≠ some pop →
    f (runLine none v.line v.text v.before) = f v.before
  expanded : ∀ (v : Visit) (x : Expansion), expansionOf? v.line v.text v.before = some x →
    f x.opened = f v.before ∧ ∀ a, f (x.close a) = f a
  fault : ∀ a cause token, f (a.fault cause token) = f a
  moved : ∀ a files sources file line extensions,
    f (a.moved files sources file line extensions) = f a

namespace SavesOn

theorem step (h : SavesOn f push pop entry) (v : Visit) :
    StackStep (f v.before) (f (runLine none v.line v.text v.before)) := by
  by_cases hpush : v.word? = some push
  · rw [h.pushed v hpush]
    exact .push _ _
  · by_cases hpop : v.word? = some pop
    · rw [h.popped v hpop]
      exact .tail _
    · rw [h.kept v hpush hpop]
      exact .keep _

/-- Whole runs move the stack by steps. -/
theorem compositional (h : SavesOn f push pop entry) : Compositional fun _ a ms b =>
    ChainAlong (fun m n => StackStep (f m.asm) (f n.asm)) f a ms b := by
  refine compositional_chainAlong (fun m n hmn _ => ?_) (fun v hv => ?_) h.expanded h.fault h.moved
  · rw [hmn]
    exact .keep _
  · have hstep := h.step v
    rw [← hv] at hstep
    exact hstep

end SavesOn

/-- A line `w` that begins, later in a run, when the stack is as high as a line `v` left it, and the
stack was never lower in between. -/
def Matches (f : Assembler → List α) (moments : List Moment) (v w : Visit) : Prop :=
  ∃ past body rest, moments = past ++ ⟨v, true⟩ :: (body ++ ⟨w, false⟩ :: rest) ∧
    (f w.before).length = (f v.after).length ∧
      ∀ m ∈ body, (f v.after).length ≤ (f m.asm).length

/-- The line that matches another one begins with the stack that the other one left. -/
theorem SavesOn.eq_of_matches (h : SavesOn f push pop entry) {asm : Assembler}
    {sources : List Source} {v w : Visit} (hmatch : Matches f (asm.historyOf sources) v w) :
    f w.before = f v.after := by
  obtain ⟨past, body, rest, hsplit, hlength, hhigh⟩ := hmatch
  have hsteps : ((asm.historyOf sources).map (f ·.asm)).IsChain StackStep :=
    (List.isChain_map _).2 (h.compositional.of_sources sources asm).steps
  rw [hsplit, List.map_append, List.map_cons, List.map_append, List.map_cons] at hsteps
  have hchain : (f v.after :: (body.map (f ·.asm) ++ [f w.before])).IsChain StackStep := by
    have htail := (List.isChain_append.1 hsteps).2.1
    rw [← List.cons_append, List.append_cons] at htail
    exact (List.isChain_append.1 htail).1
  have hsuffix := StackStep.suffix_of_isChain hchain List.suffix_rfl (by
    intro t ht
    rcases List.mem_append.1 ht with ht | ht
    · obtain ⟨m, hm, rfl⟩ := List.mem_map.1 ht
      exact hhigh m hm
    · rw [List.mem_singleton.1 ht]
      exact hlength.ge)
  exact ((hsuffix _ (by simp)).eq_of_length hlength.symm).symm

/-- The line that takes off what another one saved begins with it on top of the stack that the
other one found. -/
theorem SavesOn.restored (h : SavesOn f push pop entry) {asm : Assembler}
    {sources : List Source} {v w : Visit} (hv : v.word? = some push)
    (hplain : expansionOf? v.line v.text v.before = none)
    (hmatch : Matches f (asm.historyOf sources) v w) : f w.before = entry v :: f v.before := by
  rw [h.eq_of_matches hmatch, Visit.after_eq_runLine (Or.inr hplain)]
  exact h.pushed v hv

end Stack

/-! ## Sections that were set aside -/

end Assembler

/-- What `PUSHS` saves of a state. -/
def State.openScope (st : State) : SectionScope := ⟨st.current, st.unions, st.globalLabel⟩

theorem State.savedScopes_pushSection (st : State) :
    st.pushSection.savedScopes = st.openScope :: st.savedScopes := by
  obtain ⟨openLabel, labels, hclose, -, -⟩ := st.closeLabel_footprint
  unfold pushSection
  rw [hclose]
  rfl

theorem State.savedScopes_popSection (st : State) (word : Token) :
    (st.popSection word).savedScopes = st.savedScopes.tail := by
  obtain ⟨openLabel, labels, hclose, -, -⟩ := st.closeLabel_footprint
  unfold popSection
  rw [hclose]
  dsimp only
  cases hs : st.savedScopes with
  | nil => rfl
  | cons scope outer => rfl

/-- `POPS` goes back to what was saved last. -/
theorem State.openScope_popSection {st : State} {scope : SectionScope} {outer : List SectionScope}
    (h : st.savedScopes = scope :: outer) (word : Token) :
    (st.popSection word).openScope = scope := by
  obtain ⟨openLabel, labels, hclose, -, -⟩ := st.closeLabel_footprint
  unfold popSection
  rw [hclose]
  dsimp only
  rw [h]
  rfl

namespace Assembler

/-- `PUSHS` saves the scope that is open, and `POPS` takes it back. -/
theorem savesOn_savedScopes :
    SavesOn (·.state.savedScopes) .pushs .pops (·.labelled.state.openScope) where
  pushed v hv := by
    obtain ⟨label, word, args, hrun⟩ := exists_keywordBody hv rfl rfl
    obtain ⟨labels, hlayout⟩ := exists_layout_labelled v
    have hsaved : v.labelled.state.savedScopes = v.before.state.savedScopes :=
      congrArg Layout.savedScopes hlayout
    rw [hrun, ← hsaved]
    exact v.labelled.state.savedScopes_pushSection
  popped v hv := by
    obtain ⟨label, word, args, hrun⟩ := exists_keywordBody hv rfl rfl
    obtain ⟨labels, hlayout⟩ := exists_layout_labelled v
    have hsaved : v.labelled.state.savedScopes = v.before.state.savedScopes :=
      congrArg Layout.savedScopes hlayout
    rw [hrun, ← hsaved]
    exact v.labelled.state.savedScopes_popSection word
  kept v hpush hpop :=
    Stores.eq_of_changes (Stores.savedScopes_of_change (by simp [hpush, hpop])) (changes_visit v)
  expanded v x hx := by
    obtain ⟨hopened, hclosed⟩ := changes_expansionOf? hx
    exact ⟨Stores.eq_of_changes (Stores.savedScopes_of_change (by simp)) hopened,
      fun a => congrArg Stores.savedScopes (hclosed a)⟩
  fault _ _ _ := rfl
  moved _ _ _ _ _ _ := rfl

/-! ## Options that were saved -/

theorem optionStack_labelled_visit (v : Visit) :
    v.labelled.state.optionStack = v.before.state.optionStack := by
  cases hp : parsed? v.line v.text v.before with
  | none => rw [Visit.labelled, hp]
  | some found =>
    obtain ⟨diagnostics, hasm⟩ := parsed?_footprint hp
    rw [labelled_of_parsed? hp]
    refine (found.2.optionStack_labelled false found.1.label).trans ?_
    rw [hasm]
    rfl

/-- `PUSHO` saves the options in force, and `POPO` takes them back. -/
theorem savesOn_savedOptions :
    SavesOn (·.state.savedOptions) .pusho .popo (·.before.state.options) where
  pushed v hv := by
    rw [savedOptions_visit, hv]
    rfl
  popped v hv := by
    rw [savedOptions_visit, hv]
    rfl
  kept v hpush hpop := by
    rw [savedOptions_visit, State.savedAfter_of_ne _ hpush hpop]
  expanded v x hx := by
    obtain ⟨hopened, hclosed⟩ := v.before.optionStack_expansionOf? hx
    exact ⟨(List.cons.inj hopened).2, fun a => (List.cons.inj (hclosed a)).2⟩
  fault _ _ _ := rfl
  moved _ _ _ _ _ _ := rfl

/-- `PUSHO` expands to nothing. -/
theorem expansionOf?_of_pusho {v : Visit} (h : v.word? = some .pusho) :
    expansionOf? v.line v.text v.before = none := by
  obtain ⟨⟨parsed, asm⟩, hp, hword⟩ := Option.bind_eq_some_iff.1 h
  rw [expansionOf?, hp, Option.bind_some]
  dsimp only [Option.bind_some] at hword ⊢
  unfold Line.word? at hword
  unfold expansion?
  split
  · rename_i hop
    rw [hop] at hword
    exact absurd hword (by simp)
  · rename_i word args hop
    rw [hop] at hword
    rw [(Option.filter_eq_some_iff.1 hword).1]
    dsimp only [ofKeyword?]
    split
    · rfl
    · rfl
  · rfl

/-! ## Restoring -/

/-- After the line `w`, sections, unions and the scope of local labels are as before the line `v`.
A label in front of the keyword of `v` is defined before anything is saved. -/
structure ScopesRestored (v w : Visit) : Prop where
  current : w.after.state.current = v.before.state.current
  unions : w.after.state.unions = v.before.state.unions
  globalLabel : w.after.state.globalLabel = v.labelled.state.globalLabel
  unlabelled : v.label? = none → w.after.state.globalLabel = v.before.state.globalLabel
  savedScopes : w.after.state.savedScopes = v.before.state.savedScopes

theorem scopesRestored_of_matches {asm : Assembler} {sources : List Source} {v w : Visit}
    (hv : v.word? = some .pushs) (hw : w.word? = some .pops)
    (hmatch : Matches (·.state.savedScopes) (asm.historyOf sources) v w) :
    ScopesRestored v w := by
  have hplain : ∀ {u : Visit} {k : Keyword}, u.word? = some k → k = .pushs ∨ k = .pops →
      expansionOf? u.line u.text u.before = none := by
    rintro u k hu (rfl | rfl)
    · exact expansionOf?_of_word? hu rfl (by simp) (by simp)
    · exact expansionOf?_of_word? hu rfl (by simp) (by simp)
  have htop := savesOn_savedScopes.restored hv (hplain hv (Or.inl rfl)) hmatch
  have hafter := Visit.after_eq_runLine (Or.inr (hplain hw (Or.inr rfl)))
  -- The label in front of `POPS` is defined before the scope is left.
  obtain ⟨label, word, args, hrun⟩ := exists_keywordBody hw rfl rfl
  obtain ⟨labels, hlayout⟩ := exists_layout_labelled w
  have hsaved := (congrArg Layout.savedScopes hlayout).trans htop
  have hscope : w.after.state.openScope = v.labelled.state.openScope := by
    rw [hafter, hrun]
    exact State.openScope_popSection hsaved word
  obtain ⟨labels', hlayout'⟩ := exists_layout_labelled v
  have hglobal := congrArg SectionScope.globalLabel hscope
  exact
    { current := (congrArg SectionScope.current hscope).trans (congrArg Layout.current hlayout')
      unions := (congrArg SectionScope.unions hscope).trans (congrArg Layout.unions hlayout')
      globalLabel := hglobal
      unlabelled := fun hlabel => hglobal.trans (globalLabel_labelled hlabel)
      savedScopes := by
        rw [hafter, savesOn_savedScopes.popped w hw, htop]
        rfl }

theorem optionStack_of_matches {asm : Assembler} {sources : List Source} {v w : Visit}
    (hv : v.word? = some .pusho) (hw : w.word? = some .popo)
    (hmatch : Matches (·.state.savedOptions) (asm.historyOf sources) v w) :
    w.after.state.optionStack = v.before.state.optionStack := by
  have htop := savesOn_savedOptions.restored hv (expansionOf?_of_pusho hv) hmatch
  have hplain := expansionOf?_of_word? hw rfl (by simp) (by simp)
  obtain ⟨label, word, args, hrun⟩ := exists_keywordBody hw rfl rfl
  have hsaved : w.labelled.state.savedOptions = v.before.state.optionStack :=
    (List.cons.inj (optionStack_labelled_visit w)).2.trans htop
  have hne : w.labelled.state.savedOptions ≠ [] := by
    rw [hsaved]
    exact List.cons_ne_nil _ _
  rw [Visit.after_eq_runLine (Or.inr hplain), hrun]
  exact (State.optionStack_popOptions hne word).trans hsaved

/-- **What was saved is restored exactly**, whatever is carried out in between: the scope that
`PUSHS` sets aside by the `POPS` that matches it, and the whole stack of options by the `POPO` that
matches a `PUSHO`. -/
theorem scopes_and_options_restored (asm : Assembler) (sources : List Source) (v w : Visit) :
    (v.word? = some .pushs → w.word? = some .pops →
      Matches (·.state.savedScopes) (asm.historyOf sources) v w → ScopesRestored v w) ∧
    (v.word? = some .pusho → w.word? = some .popo →
      Matches (·.state.savedOptions) (asm.historyOf sources) v w →
        w.after.state.optionStack = v.before.state.optionStack) :=
  ⟨fun hv hw hmatch => scopesRestored_of_matches hv hw hmatch,
    fun hv hw hmatch => optionStack_of_matches hv hw hmatch⟩

/-- Whether two moments, `count + 1` apart, are the end of a line with one keyword and the
beginning of a line with another, with no lower stack in between. -/
def matchesAt {α : Type} (f : Assembler → List α) (moments : List Moment) (push pop : Keyword)
    (start count : Nat) : Bool :=
  moments[start]?.any fun m => moments[start + 1 + count]?.any fun n =>
    m.done && !n.done && m.visit.word? = some push && n.visit.word? = some pop &&
      (f n.visit.before).length = (f m.visit.after).length &&
      ((moments.drop (start + 1)).take count).all fun b =>
        (f m.visit.after).length ≤ (f b.asm).length

/-- A run around two of its moments, `count + 1` apart. -/
theorem split_of_getElem? {moments : List Moment} {m n : Moment} {start count : Nat}
    (hm : moments[start]? = some m) (hn : moments[start + 1 + count]? = some n) :
    moments = moments.take start ++ m ::
      ((moments.drop (start + 1)).take count ++ n :: moments.drop (start + 1 + count + 1)) := by
  obtain ⟨hlt, hm⟩ := List.getElem?_eq_some_iff.1 hm
  obtain ⟨hlt', hn⟩ := List.getElem?_eq_some_iff.1 hn
  have hrest : (moments.drop (start + 1)).drop count =
      n :: moments.drop (start + 1 + count + 1) := by
    rw [List.drop_drop, List.drop_eq_getElem_cons hlt', hn]
  rw [← hrest, List.take_append_drop, ← hm, ← List.drop_eq_getElem_cons hlt,
    List.take_append_drop]

theorem exists_matches {α : Type} {f : Assembler → List α} {moments : List Moment}
    {push pop : Keyword} {start count : Nat}
    (h : matchesAt f moments push pop start count = true) :
    ∃ v w, v.word? = some push ∧ w.word? = some pop ∧ Matches f moments v w := by
  obtain ⟨⟨v, done⟩, hv, h⟩ := (Option.any_eq_true _ _).1 h
  obtain ⟨⟨w, done'⟩, hw, h⟩ := (Option.any_eq_true _ _).1 h
  simp only [Bool.and_eq_true, Bool.not_eq_eq_eq_not, Bool.not_true, decide_eq_true_eq,
    List.all_eq_true] at h
  obtain ⟨⟨⟨⟨⟨rfl, rfl⟩, hpush⟩, hpop⟩, hlength⟩, hhigh⟩ := h
  exact ⟨v, w, hpush, hpop, _, _, _, split_of_getElem? hv hw, hlength, hhigh⟩

/-- A section and options are left in a macro, and gone back to behind another section. -/
def leavingSource : Source :=
  .text "a" <| "leave: MACRO\n PUSHS\n PUSHO p9\n ENDM\n SECTION \"a\",ROM0\nmain: leave\n" ++
    " SECTION \"b\",ROM0\n PUSHS\n OPT p8\n POPS\nlast: POPO\n POPS\n"

theorem scopes_and_options_restored_leavingSource :
    (∃ v w, v.word? = some .pushs ∧ w.word? = some .pops ∧
      Matches (·.state.savedScopes) ((new {} (.memory {})).historyOf [leavingSource]) v w ∧
        ScopesRestored v w) ∧
    ∃ v w, v.word? = some .pusho ∧ w.word? = some .popo ∧
      Matches (·.state.savedOptions) ((new {} (.memory {})).historyOf [leavingSource]) v w ∧
        w.after.state.optionStack = v.before.state.optionStack := by
  have hlines : (matchesAt (·.state.savedScopes)
        ((new {} (.memory {})).historyOf [leavingSource]) .pushs .pops 12 13 &&
      matchesAt (·.state.savedOptions)
        ((new {} (.memory {})).historyOf [leavingSource]) .pusho .popo 14 9) = true := by
    decide +kernel
  obtain ⟨hscopes, hoptions⟩ := Bool.and_eq_true_iff.1 hlines
  constructor
  · obtain ⟨v, w, hv, hw, hmatch⟩ := exists_matches hscopes
    exact ⟨v, w, hv, hw, hmatch, (scopes_and_options_restored _ _ v w).1 hv hw hmatch⟩
  · obtain ⟨v, w, hv, hw, hmatch⟩ := exists_matches hoptions
    exact ⟨v, w, hv, hw, hmatch, (scopes_and_options_restored _ _ v w).2 hv hw hmatch⟩

end Assembler

end Sm83Asm
