import Sm83Asm.Proofs.Run.Changes
import Sm83Asm.Proofs.Run.Depth

set_option autoImplicit false

/-!
# The sections of unions

A union remembers where its members start, but not in which section. `NEXTU` and `ENDU` cut off or
fill up whatever section is open. Along a run, the `UNION` lines whose unions are open are noted
together with those that were set aside (`OpenUnions`), so that every `NEXTU` and `ENDU` has the
`UNION` line that it belongs to.

Main statement: as long as no `SECTION` line leads away from a section with an open union, `NEXTU`
and `ENDU` touch no section but that of their `UNION` line (`unions_keep_to_home`). Without the
condition they do (`stray_union_cuts_other_section`).
-/

namespace Sm83Asm

open Stores

namespace Assembler

/-! ## Notes along a run -/

section Notes

variable {G : Type} {test : Visit → Prop} {note : G → Visit → G} {I : G → Assembler → Prop}

/-- What is noted of some moments: every line is noted when it is done. -/
def notes (note : G → Visit → G) (g : G) (moments : List Moment) : G :=
  moments.foldl (fun g m => if m.done then note g m.visit else g) g

theorem notes_append (note : G → Visit → G) (g : G) (ms ns : List Moment) :
    notes note g (ms ++ ns) = notes note (notes note g ms) ns :=
  List.foldl_append

/-- An invariant of the assembler and of what is noted, that is kept by lines which pass a test. -/
structure Noted (test : Visit → Prop) (note : G → Visit → G) (I : G → Assembler → Prop) :
    Prop where
  plain : ∀ g (v : Visit), test v → v.after = runLine none v.line v.text v.before →
    I g v.before → I (note g v) v.after
  opened : ∀ g (v : Visit) (x : Expansion), expansionOf? v.line v.text v.before = some x →
    I g v.before → I g x.opened
  closed : ∀ g (v : Visit) (x : Expansion), expansionOf? v.line v.text v.before = some x →
    ∀ a, I g a → I (note g v) (x.close a)
  fault : ∀ g a cause token, I g a → I g (a.fault cause token)
  moved : ∀ g a files sources file line extensions, I g a →
    I g (a.moved files sources file line extensions)

/-- The invariant holds at the end of a stretch and before each of its lines, if it holds at the
start. -/
def NotedAlong (note : G → Visit → G) (I : G → Assembler → Prop) (a : Assembler)
    (ms : List Moment) (b : Assembler) : Prop :=
  ∀ g, I g a → I (notes note g ms) b ∧
    ∀ past v rest, ms = past ++ ⟨v, false⟩ :: rest → I (notes note g past) v.before

theorem notedAlong_nil {a b : Assembler} (h : ∀ g, I g a → I g b) : NotedAlong note I a [] b :=
  fun g ha => ⟨h g ha, fun past v rest hsplit => absurd hsplit (by simp)⟩

theorem notedAlong_append {a b c : Assembler} {ms ns : List Moment} (hab : NotedAlong note I a ms b)
    (hbc : NotedAlong note I b ns c) : NotedAlong note I a (ms ++ ns) c := by
  intro g ha
  obtain ⟨hb, hms⟩ := hab g ha
  obtain ⟨hc, hns⟩ := hbc _ hb
  rw [notes_append]
  refine ⟨hc, fun past v rest hsplit => ?_⟩
  rcases List.append_eq_append_iff.1 hsplit with ⟨front, rfl, hfront⟩ | ⟨back, rfl, hback⟩
  · rw [notes_append]
    exact hns front v rest hfront
  · cases back with
    | nil =>
      have hstart := hns [] v rest hback.symm
      rwa [List.append_nil] at hstart
    | cons m back =>
      obtain ⟨rfl, -⟩ := List.cons.inj hback
      exact hms past v back rfl

theorem notedAlong_from {a b c : Assembler} {ms : List Moment} (hab : ∀ g, I g a → I g b)
    (hbc : NotedAlong note I b ms c) : NotedAlong note I a ms c :=
  notedAlong_append (notedAlong_nil hab) hbc

theorem notedAlong_to {a b c : Assembler} {ms : List Moment} (hab : NotedAlong note I a ms b)
    (hbc : ∀ g, I g b → I g c) : NotedAlong note I a ms c := by
  have := notedAlong_append hab (notedAlong_nil hbc)
  rwa [List.append_nil] at this

/-- The two moments of a line around a stretch. -/
theorem notedAlong_around {v : Visit} {b : Assembler} {ms : List Moment}
    (h : NotedAlong note I v.before ms b) (hdone : ∀ g, I g b → I (note g v) v.after) :
    NotedAlong note I v.before (v.around ms) v.after := by
  have hbegin : NotedAlong note I v.before [⟨v, false⟩] v.before := by
    refine fun g ha => ⟨ha, fun past v' rest hsplit => ?_⟩
    rcases past with _ | ⟨m, past⟩
    · obtain ⟨hv, -⟩ := List.cons.inj hsplit
      cases hv
      exact ha
    · exact absurd (List.cons.inj hsplit).2 (by simp)
  have hend : NotedAlong note I b [⟨v, true⟩] v.after := by
    refine fun g hb => ⟨hdone g hb, fun past v' rest hsplit => ?_⟩
    rcases past with _ | ⟨m, past⟩
    · exact absurd (List.cons.inj hsplit).1 (by simp)
    · exact absurd (List.cons.inj hsplit).2 (by simp)
  exact notedAlong_append (notedAlong_append hbegin h) hend

/-- The invariant holds along whole runs. -/
theorem Noted.compositional (h : Noted test note I) : Compositional fun _ a ms b =>
    (∀ m ∈ ms, test m.visit) → NotedAlong note I a ms b where
  nil _ a _ := notedAlong_nil fun _ ha => ha
  append hab hbc ht := by
    rw [List.forall_mem_append] at ht
    exact notedAlong_append (hab ht.1) (hbc ht.2)
  plain v hv ht := by
    have htest := ht ⟨v, false⟩ (by simp [Visit.around])
    exact notedAlong_around (notedAlong_nil fun _ ha => ha) fun g hg =>
      h.plain g v htest (Visit.after_eq_runLine hv) hg
  expanded v x n ms b _ hx hafter hb ht := by
    have hbody := hb fun m hm => ht m (by simp [Visit.around, hm])
    refine notedAlong_around (notedAlong_from (fun g => h.opened g v x hx) hbody) ?_
    rw [hafter]
    exact fun g => h.closed g v x hx b
  unread _ a file _ _ := notedAlong_nil fun g => h.fault g a _ _
  range hb ht :=
    notedAlong_to (notedAlong_from (fun g => h.moved g _ _ _ _ _ _) (hb ht)) fun g =>
      h.moved g _ _ _ _ _ _
  file hb ht :=
    notedAlong_to (notedAlong_from (fun g => h.moved g _ _ _ _ _ _) (hb ht)) fun g =>
      h.moved g _ _ _ _ _ _
  load _ a files name text _ := notedAlong_nil fun g => h.moved g a files _ _ _ _

end Notes

/-! ## Open unions -/

/-- The `UNION` lines whose unions are open, innermost first, and those that were set aside with
their sections. -/
structure OpenUnions where
  lines : List Visit := []
  aside : List (List Visit) := []

/-- What a line does to them. `UNION` and `ENDU` do nothing outside of a section, and `POPS` does
nothing when no section is set aside. -/
def OpenUnions.note (o : OpenUnions) (v : Visit) : OpenUnions :=
  match v.word? with
  | some .union => if v.before.state.section?.isSome then { o with lines := v :: o.lines } else o
  | some .endu => if v.before.state.section?.isSome then { o with lines := o.lines.tail } else o
  | some .pushs => { lines := [], aside := o.lines :: o.aside }
  | some .pops =>
    match o.aside with
    | [] => o
    | lines :: aside => { lines, aside }
  | _ => o

/-- The unions that are open after some moments of a run. -/
def openUnions (past : List Moment) : OpenUnions := notes OpenUnions.note {} past

end Assembler

/-! ## What changes leave alone -/

namespace Stores

variable {word : Option Keyword} {a b : Stores}

/-- Neither a section nor its patches have changed. -/
def Untouched (place : String) (a b : Stores) : Prop :=
  b.sections.get? place = a.sections.get? place ∧
    b.patches.filter (·.place == place) = a.patches.filter (·.place == place)

theorem get?_mapBytes_of_ne (s : Stores) {place other : String} (h : other ≠ place)
    (f : Array UInt8 → Array UInt8) :
    (s.mapBytes place f).sections.get? other = s.sections.get? other := by
  rw [mapBytes, Table.get?_modify, if_neg h]

/-- `NEXTU` and `ENDU` touch the open section only. -/
theorem frame_of_change (hw : word = some .nextu ∨ word = some .endu) (h : Change word a b) :
    b.current = a.current ∧ ∀ place, a.current ≠ some place → a.Untouched place b := by
  have hword : ∀ {k}, word = some k → k = .nextu ∨ k = .endu := by
    rintro k rfl
    simpa using hw
  cases h with
  | @emit place symbols new bytes ho _ hp =>
    refine ⟨rfl, fun other hother => ?_⟩
    have hne : other ≠ place := fun he => hother (he ▸ ho)
    refine ⟨get?_mapBytes_of_ne _ hne _, ?_⟩
    have hnone : new.toArray.filter (·.place == other) = #[] := by
      simpa using fun p hmem he => hne (he.symm.trans (hp p hmem))
    show (a.patches ++ new.toArray).filter (·.place == other) = _
    rw [Array.filter_append Array.size_append, hnone, Array.append_empty]
  | @nextMember place u outer u' _ ho _ =>
    refine ⟨rfl, fun other hother => ?_⟩
    have hne : other ≠ place := fun he => hother (he ▸ ho)
    refine ⟨get?_mapBytes_of_ne _ hne _, ?_⟩
    show (a.patches.filter (State.keepsPatch (some place) u.offset)).filter (·.place == other) = _
    rw [Array.filter_filter]
    refine congrArg (a.patches.filter ·) (funext fun p => ?_)
    -- A patch of another section is never taken back.
    by_cases he : p.place = other
    · simp [State.keepsPatch, he, hne]
    · simp [he]
  | @endUnion place _ _ _ _ _ _ ho =>
    refine ⟨rfl, fun other hother => ?_⟩
    have hne : other ≠ place := fun he => hother (he ▸ ho)
    exact ⟨get?_mapBytes_of_ne _ hne _, rfl⟩
  | enter _ hsection => simpa using hword hsection
  | create hsection => simpa using hword hsection
  | push hpush => simpa using hword hpush
  | pop hpop => simpa using hword hpop
  | _ => exact ⟨rfl, fun _ _ => ⟨rfl, rfl⟩⟩

/-- Only `SECTION`, `PUSHS` and `POPS` change which section is open. -/
theorem current_of_change (hw : ∀ k ∈ [Keyword.sectionStart, .pushs, .pops], word ≠ some k)
    (h : Change word a b) : b.current = a.current := by
  cases h with
  | enter _ hsection => exact absurd hsection (hw _ (by simp))
  | push hpush => exact absurd hpush (hw _ (by simp))
  | pop hpop => exact absurd hpop (hw _ (by simp))
  | _ => rfl

theorem savedScopes_of_change (hw : ∀ k ∈ [Keyword.pushs, .pops], word ≠ some k)
    (h : Change word a b) : b.savedScopes = a.savedScopes := by
  cases h with
  | push hpush => exact absurd hpush (hw _ (by simp))
  | pop hpop => exact absurd hpop (hw _ (by simp))
  | _ => rfl

/-- Without `UNION` and `ENDU`, and within a section, the number of open unions stays. -/
theorem length_unions_of_change
    (hw : ∀ k ∈ [Keyword.union, .endu, .pushs, .pops], word ≠ some k) (h : Change word a b) :
    b.unions.length = a.unions.length := by
  cases h with
  | beginUnion _ hunion => exact absurd hunion (hw _ (by simp))
  | nextMember _ _ _ hu => simp [mapBytes, hu]
  | endUnion _ hendu => exact absurd hendu (hw _ (by simp))
  | push hpush => exact absurd hpush (hw _ (by simp))
  | pop hpop => exact absurd hpop (hw _ (by simp))
  | _ => rfl

end Stores

namespace Assembler

/-! ## Unions and the lines that began them -/

/-- The noted lines are those of the open unions, and all of them stand in the open section; the
same holds of every section that is set aside. -/
structure Aligned (o : OpenUnions) (s : Stores) : Prop where
  length : o.lines.length = s.unions.length
  home : ∀ u ∈ o.lines, u.before.state.current = s.current
  aside : List.Forall₂
    (fun lines scope => lines.length = scope.unions.length ∧
      ∀ u ∈ lines, u.before.state.current = scope.current)
    o.aside s.savedScopes

theorem Aligned.of_eq {o : OpenUnions} {a b : Stores} (h : Aligned o a)
    (hlength : b.unions.length = a.unions.length) (hcurrent : b.current = a.current)
    (hsaved : b.savedScopes = a.savedScopes) : Aligned o b where
  length := h.length.trans hlength.symm
  home u hu := (h.home u hu).trans hcurrent.symm
  aside := hsaved ▸ h.aside

/-- The changes of most keywords, and those without one. -/
theorem Aligned.of_changes {o : OpenUnions} {w : Option Keyword} {a b : Stores} (h : Aligned o a)
    (hw : ∀ k ∈ [Keyword.union, .endu, .sectionStart, .pushs, .pops], w ≠ some k)
    (hchanges : Changes w a b) : Aligned o b := by
  simp only [List.forall_mem_cons, List.not_mem_nil, false_imp_iff, implies_true, and_true] at hw
  obtain ⟨hunion, hendu, hsection, hpushs, hpops⟩ := hw
  refine h.of_eq (eq_of_changes (f := (·.unions.length)) ?_ hchanges)
    (eq_of_changes ?_ hchanges) (eq_of_changes ?_ hchanges)
  · exact length_unions_of_change (by simp [hunion, hendu, hpushs, hpops])
  · exact current_of_change (by simp [hsection, hpushs, hpops])
  · exact savedScopes_of_change (by simp [hpushs, hpops])

section Lines

variable {v : Visit} {o : OpenUnions}

theorem section?_of_layout {st st' : State} {labels : Table Label}
    (h : st.layout = { st'.layout with labels }) : st.section? = st'.section? := by
  show st.layout.current.bind st.layout.sections.get? = _
  rw [h]
  rfl

/-- The state in which the keyword of a line is carried out. -/
theorem exists_aligned {k : Keyword} (h : v.word? = some k) (hlabel : k.namesLabel = false)
    (hraw : k.takesRawText = false) (ho : Aligned o v.before.state.stores) :
    ∃ (asm : Assembler) (label : Option LabelDef) (word : Token) (args : List Expr),
      runLine none v.line v.text v.before = asm.keywordBody none k label word args ∧
        Aligned o asm.state.stores ∧ asm.state.section? = v.before.state.section? ∧
        asm.state.current = v.before.state.current := by
  obtain ⟨asm, label, word, args, ⟨labels, hlayout⟩, hrun⟩ := runLine_of_word? h hlabel hraw
  refine ⟨asm, label, word, args, hrun, ?_, section?_of_layout hlayout,
    congrArg Layout.current hlayout⟩
  exact ho.of_eq (congrArg (List.length ∘ Layout.unions) hlayout)
    (congrArg Layout.current hlayout) (congrArg Layout.savedScopes hlayout)

/-- `UNION` begins a union if there is a section to begin it in. -/
theorem aligned_union (h : v.word? = some .union) (ho : Aligned o v.before.state.stores) :
    Aligned (o.note v) (runLine none v.line v.text v.before).state.stores := by
  obtain ⟨asm, label, word, args, hrun, ho, hsection, hcurrent⟩ := exists_aligned h rfl rfl ho
  rw [hrun, OpenUnions.note, h, ← hsection]
  show Aligned _ (asm.state.beginUnion word).stores
  unfold State.beginUnion State.offset?
  cases asm.state.section? with
  | none => exact ho.of_eq rfl rfl rfl
  | some body =>
    exact
      { length := congrArg (· + 1) ho.length
        home := List.forall_mem_cons.2 ⟨hcurrent.symm, ho.home⟩
        aside := ho.aside }

/-- `ENDU` ends the innermost union, if there is a section. -/
theorem unions_endUnion (st : State) (word : Token) :
    (st.endUnion word).unions = if st.section?.isSome then st.unions.tail else st.unions := by
  unfold State.endUnion State.countMember? State.offset?
  cases st.section? with
  | none => rfl
  | some body =>
    cases hu : st.unions with
    | nil => exact hu
    | cons u outer => rfl

theorem aligned_endu (h : v.word? = some .endu) (ho : Aligned o v.before.state.stores) :
    Aligned (o.note v) (runLine none v.line v.text v.before).state.stores := by
  obtain ⟨asm, label, word, args, hrun, ho, hsection, -⟩ := exists_aligned h rfl rfl ho
  have hchanges := asm.state.changes_endUnion word (w := some .endu) rfl
  have hcurrent := eq_of_changes (current_of_change (by simp)) hchanges
  have hsaved := eq_of_changes (savedScopes_of_change (by simp)) hchanges
  have hunions := unions_endUnion asm.state word
  rw [hrun, OpenUnions.note, h, ← hsection]
  show Aligned _ (asm.state.endUnion word).stores
  cases hs : asm.state.section? with
  | none =>
    rw [hs] at hunions
    exact ho.of_eq (congrArg List.length hunions) hcurrent hsaved
  | some body =>
    rw [hs] at hunions
    refine ⟨?_, fun u hu => ?_, ?_⟩
    · have hlength : (asm.state.endUnion word).unions.length = asm.state.unions.length - 1 := by
        rw [hunions]
        exact List.length_tail
      show o.lines.tail.length = (asm.state.endUnion word).unions.length
      rw [hlength, List.length_tail, ho.length]
      rfl
    · exact (ho.home u (List.mem_of_mem_tail hu)).trans hcurrent.symm
    · exact hsaved ▸ ho.aside

/-- `PUSHS` sets the open unions aside with their section. -/
theorem aligned_pushs (h : v.word? = some .pushs) (ho : Aligned o v.before.state.stores) :
    Aligned (o.note v) (runLine none v.line v.text v.before).state.stores := by
  obtain ⟨asm, label, word, args, hrun, ho, -, -⟩ := exists_aligned h rfl rfl ho
  rw [hrun, OpenUnions.note, h]
  show Aligned _ asm.state.pushSection.stores
  obtain ⟨openLabel, labels, hclose, -, -⟩ := asm.state.closeLabel_footprint
  unfold State.pushSection
  rw [hclose]
  exact ⟨rfl, by simp, .cons ⟨ho.length, ho.home⟩ ho.aside⟩

/-- `POPS` goes back to the open unions of a section. -/
theorem aligned_pops (h : v.word? = some .pops) (ho : Aligned o v.before.state.stores) :
    Aligned (o.note v) (runLine none v.line v.text v.before).state.stores := by
  obtain ⟨asm, label, word, args, hrun, ho, -, -⟩ := exists_aligned h rfl rfl ho
  rw [hrun, OpenUnions.note, h]
  show Aligned _ (asm.state.popSection word).stores
  obtain ⟨openLabel, labels, hclose, -, -⟩ := asm.state.closeLabel_footprint
  unfold State.popSection
  rw [hclose]
  obtain ⟨lines, aside⟩ := o
  have haside : List.Forall₂ _ aside asm.state.savedScopes := ho.aside
  dsimp only
  cases hs : asm.state.savedScopes with
  | nil =>
    rw [hs] at haside
    obtain rfl := List.forall₂_nil_right_iff.1 haside
    exact ho.of_eq rfl rfl hs.symm
  | cons scope outer =>
    rw [hs] at haside
    obtain ⟨top, below, ⟨hlength, hhome⟩, hbelow, rfl⟩ := List.forall₂_cons_right_iff.1 haside
    exact ⟨hlength, hhome, hbelow⟩

/-- `SECTION` leaves the unions alone, and so it may not lead away from a section that has some. -/
theorem aligned_sectionStart (h : v.word? = some .sectionStart)
    (hstay : v.before.state.unions ≠ [] →
      (runLine none v.line v.text v.before).state.current = v.before.state.current)
    (ho : Aligned o v.before.state.stores) :
    Aligned (o.note v) (runLine none v.line v.text v.before).state.stores := by
  have hchanges := changes_visit v
  rw [h] at hchanges
  have hlength := eq_of_changes (f := (·.unions.length)) (length_unions_of_change (by simp))
    hchanges
  have hsaved := eq_of_changes (savedScopes_of_change (by simp)) hchanges
  rw [OpenUnions.note, h]
  refine ⟨ho.length.trans hlength.symm, fun u hu => ?_, hsaved ▸ ho.aside⟩
  have hunions : v.before.state.unions ≠ [] := by
    have hpos := ho.length ▸ List.length_pos_of_mem hu
    exact List.ne_nil_of_length_pos hpos
  exact (ho.home u hu).trans (hstay hunions).symm

/-- A `SECTION` line that leads away from a section with an open union. -/
def Visit.strays (v : Visit) : Prop :=
  v.before.state.unions ≠ [] ∧ v.word? = some .sectionStart ∧
    v.after.state.current ≠ v.before.state.current

instance (v : Visit) : Decidable v.strays := inferInstanceAs (Decidable (_ ∧ _))

theorem note_of_ne (h : ∀ k ∈ [Keyword.union, .endu, .sectionStart, .pushs, .pops],
    v.word? ≠ some k) : o.note v = o := by
  unfold OpenUnions.note
  split
  · exact absurd ‹_› (h _ (by simp))
  · exact absurd ‹_› (h _ (by simp))
  · exact absurd ‹_› (h _ (by simp))
  · exact absurd ‹_› (h _ (by simp))
  · rfl

/-- The open unions are known from the lines of a run, and stand in the open section. -/
theorem noted_aligned : Noted (fun v => ¬ v.strays) OpenUnions.note fun o asm =>
    Aligned o asm.state.stores where
  plain o v hv hafter ho := by
    by_cases hword : ∀ k ∈ [Keyword.union, .endu, .sectionStart, .pushs, .pops], v.word? ≠ some k
    · rw [note_of_ne hword, hafter]
      exact ho.of_changes hword (changes_visit v)
    · push Not at hword
      obtain ⟨k, hk, hw⟩ := hword
      simp only [List.mem_cons, List.not_mem_nil, or_false] at hk
      rcases hk with rfl | rfl | rfl | rfl | rfl
      · exact hafter ▸ aligned_union hw ho
      · exact hafter ▸ aligned_endu hw ho
      · have hstay : v.before.state.unions ≠ [] →
            v.after.state.current = v.before.state.current := fun hunions =>
          not_not.1 fun hcurrent => hv ⟨hunions, hw, hcurrent⟩
        rw [hafter] at hstay ⊢
        exact aligned_sectionStart hw hstay ho
      · exact hafter ▸ aligned_pushs hw ho
      · exact hafter ▸ aligned_pops hw ho
  opened o v x hx ho := ho.of_changes (by simp) (changes_expansionOf? hx).1
  closed o v x hx a ho := by
    -- None of the keywords that count expands to other lines.
    have hword : ∀ k ∈ [Keyword.union, .endu, .sectionStart, .pushs, .pops], v.word? ≠ some k := by
      intro k hk hw
      have hnone : expansionOf? v.line v.text v.before = none := by
        simp only [List.mem_cons, List.not_mem_nil, or_false] at hk
        rcases hk with rfl | rfl | rfl | rfl | rfl <;>
          exact expansionOf?_of_word? hw rfl (by simp) (by simp)
      exact absurd (hnone.symm.trans hx) (by simp)
    rw [note_of_ne hword, (changes_expansionOf? hx).2 a]
    exact ho
  fault o a cause token ho := ho.of_eq rfl rfl rfl
  moved o a files sources file line extensions ho := ho.of_eq rfl rfl rfl

end Lines

/-! ## Runs -/

/-- In a run, every `NEXTU` and every `ENDU` line leaves all sections and their patches alone but
the one that was open when its `UNION` line was carried out. -/
def UnionsKeepToHome (asm : Assembler) (sources : List Source) : Prop :=
  ∀ past v rest, asm.historyOf sources = past ++ ⟨v, false⟩ :: rest →
    v.word? = some .nextu ∨ v.word? = some .endu →
      ∀ place, (∀ u ∈ (openUnions past).lines.head?, u.before.state.current ≠ some place) →
        v.before.state.stores.Untouched place v.after.state.stores

/-- Without a union, `NEXTU` and `ENDU` are errors. -/
theorem untouched_of_nil {v : Visit} (hw : v.word? = some .nextu ∨ v.word? = some .endu)
    (hunions : v.before.state.unions = []) (place : String) :
    v.before.state.stores.Untouched place
      (runLine none v.line v.text v.before).state.stores := by
  have hnone : ∀ {st : State}, st.unions = [] → st.countMember? = none := by
    intro st h
    unfold State.countMember?
    rw [h]
    cases st.offset? <;> rfl
  have hsame : ∀ {st : State} {labels : Table Label}, st.layout =
      { v.before.state.layout with labels } → v.before.state.stores.Untouched place st.stores := by
    intro st labels h
    have hsections : st.sections = v.before.state.sections := congrArg Layout.sections h
    have hpatches : st.patches = v.before.state.patches := congrArg Layout.patches h
    exact ⟨congrArg (·.get? place) hsections, congrArg (·.filter (·.place == place)) hpatches⟩
  rcases hw with hw | hw
  · obtain ⟨asm, label, word, args, ⟨labels, hlayout⟩, hrun⟩ := runLine_of_word? hw rfl rfl
    have hempty := hnone ((congrArg Layout.unions hlayout).trans hunions)
    rw [hrun]
    show v.before.state.stores.Untouched place (asm.state.nextMember word).stores
    unfold State.nextMember
    rw [hempty]
    exact hsame hlayout
  · obtain ⟨asm, label, word, args, ⟨labels, hlayout⟩, hrun⟩ := runLine_of_word? hw rfl rfl
    have hempty := hnone ((congrArg Layout.unions hlayout).trans hunions)
    rw [hrun]
    show v.before.state.stores.Untouched place (asm.state.endUnion word).stores
    unfold State.endUnion
    rw [hempty]
    exact hsame hlayout

/-- `NEXTU` and `ENDU` touch the open section only. -/
theorem untouched_of_ne {v : Visit} (hw : v.word? = some .nextu ∨ v.word? = some .endu)
    {place : String} (hplace : v.before.state.current ≠ some place) :
    v.before.state.stores.Untouched place
      (runLine none v.line v.text v.before).state.stores := by
  have hframe := Stores.of_changes
    (Q := fun a b => b.current = a.current ∧ ∀ place, a.current ≠ some place → a.Untouched place b)
    (fun _ => ⟨rfl, fun _ _ => ⟨rfl, rfl⟩⟩)
    (fun h h' => ⟨h'.1.trans h.1, fun place hp =>
      have hbc := h'.2 place (h.1 ▸ hp)
      ⟨hbc.1.trans (h.2 place hp).1, hbc.2.trans (h.2 place hp).2⟩⟩)
    (frame_of_change hw) (changes_visit v)
  exact hframe.2 place hplace

/-- **In every run in which no `SECTION` line leads away from a section with an open union**, all
`NEXTU` and `ENDU` lines keep to the section of their `UNION` line. -/
theorem unions_keep_to_home (config : Config) (files : FileStore) (sources : List Source)
    (h : ∀ m ∈ (new config files).historyOf sources, ¬ m.visit.strays) :
    UnionsKeepToHome (new config files) sources := by
  intro past v rest hsplit hw place hplace
  have hstart : Aligned {} (new config files).state.stores := ⟨rfl, by simp, .nil⟩
  have halong := noted_aligned.compositional.of_sources sources _ h {} hstart
  have haligned := halong.2 past v rest hsplit
  have hafter : v.after = runLine none v.line v.text v.before := by
    have hnone : expansionOf? v.line v.text v.before = none := by
      rcases hw with hw | hw <;> exact expansionOf?_of_word? hw rfl (by simp) (by simp)
    exact Visit.after_eq_runLine (Or.inr hnone)
  rw [hafter]
  -- The innermost union decides: without one nothing happens, and else its section is open.
  cases hlines : (openUnions past).lines with
  | nil =>
    have hlength := haligned.length
    rw [show (notes OpenUnions.note {} past).lines = [] from hlines] at hlength
    exact untouched_of_nil hw (List.eq_nil_of_length_eq_zero hlength.symm) place
  | cons u outer =>
    have hhome := haligned.home u (by
      rw [show (notes OpenUnions.note {} past).lines = u :: outer from hlines]
      exact List.mem_cons_self)
    refine untouched_of_ne hw fun hcurrent => hplace u ?_ (hhome.trans hcurrent)
    rw [hlines]
    rfl

/-- Another section is entered while a union is set aside with its own. -/
def asideSource : Source :=
  .text "a"
    " SECTION \"a\",ROM0\n UNION\n db 1\n PUSHS\n SECTION \"b\",ROM0\n db 2\n POPS\n NEXTU\n ENDU\n"

theorem unions_keep_to_home_asideSource :
    (∀ m ∈ (new {} (.memory {})).historyOf [asideSource], ¬ m.visit.strays) ∧
      UnionsKeepToHome (new {} (.memory {})) [asideSource] := by
  have h : ∀ m ∈ (new {} (.memory {})).historyOf [asideSource], ¬ m.visit.strays := by
    decide +kernel
  exact ⟨h, unions_keep_to_home {} (.memory {}) [asideSource] h⟩

/-- A union that is gone on with in another section. -/
def straySource : Source :=
  .text "a" " SECTION \"a\",ROM0\n UNION\n SECTION \"b\",ROM0\n db 1,2,3\n NEXTU\n ENDU\n"

/-- The `NEXTU` line of this run cuts off three bytes of a section in which no union was begun. -/
theorem stray_union_cuts_other_section :
    ¬ UnionsKeepToHome (new {} (.memory {})) [straySource] := by
  intro h
  have hhome : (openUnions (((new {} (.memory {})).historyOf [straySource]).take 8)).lines.head?.map
      (·.before.state.current) = some (some "a") := by
    decide +kernel
  have hline : ((new {} (.memory {})).historyOf [straySource])[8]?.any (fun m =>
      !m.done && m.visit.word? = some .nextu &&
        (m.visit.before.state.sections.get? "b").map (·.bytes.size) = some 3 &&
        (m.visit.after.state.sections.get? "b").map (·.bytes.size) = some 0) = true := by
    decide +kernel
  unfold UnionsKeepToHome at h
  generalize (new {} (.memory {})).historyOf [straySource] = ms at h hhome hline
  obtain ⟨⟨v, done⟩, hget, hfacts⟩ := (Option.any_eq_true _ _).1 hline
  simp only [Bool.and_eq_true, Bool.not_eq_eq_eq_not, Bool.not_true, decide_eq_true_eq] at hfacts
  obtain ⟨⟨⟨rfl, hword⟩, hbefore⟩, hafter⟩ := hfacts
  have hsplit : ms = ms.take 8 ++ ⟨v, false⟩ :: ms.drop 9 := by
    obtain ⟨hlt, hm⟩ := List.getElem?_eq_some_iff.1 hget
    rw [← hm, ← List.drop_eq_getElem_cons hlt, List.take_append_drop]
  have hother : ∀ u ∈ (openUnions (ms.take 8)).lines.head?, u.before.state.current ≠ some "b" := by
    intro u hu hcurrent
    rw [Option.mem_def.1 hu, Option.map_some, hcurrent] at hhome
    exact absurd hhome (by simp)
  have hsame : v.after.state.sections.get? "b" = v.before.state.sections.get? "b" :=
    (h _ v _ hsplit (Or.inl hword) "b" hother).1
  rw [hsame, hbefore] at hafter
  exact absurd hafter (by simp)

end Assembler

end Sm83Asm
