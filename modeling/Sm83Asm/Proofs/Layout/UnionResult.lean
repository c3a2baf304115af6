import Sm83Asm.Proofs.Layout.Patches
import Sm83Asm.Proofs.Run.Restored

set_option autoImplicit false

/-!
# What a union leaves behind

A union is a block of lines from `UNION` to `ENDU`, cut into members by `NEXTU`. The bytes of a
member are taken back before the next one begins, together with their patches, so that at the end
the section holds the last member, filled up to the length of the longest one.

Unions can be nested in members to any depth. Between the lines of a block, the outer union is known
by what the section held when it began (`Within`): whatever inner unions take back lies behind that.

Main statement: `union_result`.
-/

namespace Sm83Asm

open Layout

/-! ## Patches begin inside their sections -/

namespace Layout

/-- Every patch begins inside its section. -/
def PatchesInside (l : Layout) : Prop :=
  ∀ p ∈ l.patches, ∃ body, l.sections.get? p.place = some body ∧ p.offset < body.bytes.size

/-- A section that ends up at least as large as before keeps its patches inside. -/
theorem PatchesInside.grow {l : Layout} (h : PatchesInside l) {place : String} {body : Section}
    (ho : l.IsOpen place body) {f : Array UInt8 → Array UInt8} {more : Array UInt8}
    (hf : f body.bytes = body.bytes ++ more) : PatchesInside (l.mapBytes place f) := by
  intro p hp
  obtain ⟨s, hs, hlt⟩ := h p hp
  obtain ⟨s', hs', hle⟩ := exists_get?_grow ho hf hs
  exact ⟨s', hs', Nat.lt_of_lt_of_le hlt hle⟩

/-- Bytes that are filled up to at least their own size. -/
theorem resize_eq_append {bytes : Array UInt8} {size : Nat} (h : bytes.size ≤ size) (pad : UInt8) :
    State.resize bytes size pad = bytes ++ Array.replicate (size - bytes.size) pad := by
  rw [State.resize, Array.take_eq_extract, Array.extract_eq_self_of_le h]

/-- An edit leaves every patch inside the bytes of its section. -/
theorem PatchesInside.edit {a b : Layout} (ha : PatchesInside a) (h : Edit a b) :
    PatchesInside b := by
  cases h with
  | define => exact ha
  | relabel => exact ha
  | remove => exact ha
  | beginUnion => exact ha
  | @emit st place body bytes after ho he =>
    obtain ⟨new, hnew, hplaced, -⟩ := he.patches
    intro p hp
    have hmem : p ∈ st.patches.toList ∨ p ∈ new := by
      rw [← List.mem_append]
      exact hnew ▸ Array.mem_def.1 hp
    rcases hmem with hmem | hmem
    · exact ha.grow ho (f := (· ++ bytes.toArray)) rfl p (Array.mem_def.2 hmem)
    · have hcovers := hplaced.covers p hmem
      have hstop := hcovers.stop_le
      have hwidth := Patch.width_pos p.kind
      obtain rfl := hcovers.place_eq
      refine ⟨_, ho.get?_mapBytes (· ++ bytes.toArray), ?_⟩
      unfold Patch.stop at hstop
      simp only [Array.size_append, List.size_toArray]
      omega
  | @nextMember _ place body u outer ho hu =>
    intro p hp
    obtain ⟨hmem, hkeeps⟩ := Array.mem_filter.1 hp
    obtain ⟨s, hs, hlt⟩ := ha p hmem
    by_cases hplace : p.place = place
    · subst hplace
      obtain rfl : s = body := Option.some.inj (hs.symm.trans ho.2)
      refine ⟨_, ho.get?_mapBytes (·.take u.offset), ?_⟩
      have hbefore : p.offset < u.offset := by simpa [State.keepsPatch] using hkeeps
      simp only [Array.take_eq_extract, Array.size_extract]
      omega
    · exact ⟨s, (get?_mapBytes_of_ne _ hplace _).trans hs, hlt⟩
  | @endUnion _ place body u outer pad ho hu =>
    have hsize : body.bytes.size ≤ u.offset + max u.length (body.bytes.size - u.offset) := by omega
    exact PatchesInside.grow (l := { a with unions := outer }) ha ho (resize_eq_append hsize pad)

/-- Turning to another section moves no patch. -/
theorem PatchesInside.switch {a b : Layout} (ha : PatchesInside a) (h : Switch a b) :
    PatchesInside b := by
  cases h with
  | enter => exact ha
  | push => exact ha
  | pop => exact ha
  | @create declared hnew =>
    intro p hp
    obtain ⟨s, hs, hlt⟩ := ha p hp
    have hkey := (Table.get?_eq_none_iff _ _).1 hnew
    refine ⟨s, ?_, hlt⟩
    rw [Table.get?_insert_of_not_mem declared hkey, if_neg, hs]
    intro hname
    rw [hname, hnew] at hs
    exact absurd hs (by simp)

end Layout

/-! ## Members -/

namespace Layout

/-- Goes on with the next member of the innermost union, in a section of some size. -/
def nextMember (l : Layout) (place : String) (size : Nat) (u : Union) (outer : List Union) :
    Layout :=
  { l with
      unions := { u with length := max u.length (size - u.offset) } :: outer
      patches := l.patches.filter (State.keepsPatch (some place) u.offset) }.mapBytes
    place (·.take u.offset)

/-- Ends the innermost union, in a section of some size. -/
def endUnion (l : Layout) (place : String) (size : Nat) (u : Union) (outer : List Union)
    (pad : UInt8) : Layout :=
  { l with unions := outer }.mapBytes place fun bytes =>
    State.resize bytes (u.offset + max u.length (size - u.offset)) pad

end Layout

namespace State

variable {st : State} {place : String} {body : Section}

/-- The bytes of the open section. -/
def openBytes (st : State) : List UInt8 := (st.section?.map (·.bytes.toList)).getD []

theorem openBytes_of_isOpen (ho : st.layout.IsOpen place body) :
    st.openBytes = body.bytes.toList := by
  have hsection : st.section? = some body := by
    rw [section?, show st.current = some place from ho.1]
    exact ho.2
  rw [openBytes, hsection]
  rfl

theorem offset?_of_isOpen (ho : st.layout.IsOpen place body) :
    st.offset? = some body.bytes.size := by
  rw [offset?, section?, show st.current = some place from ho.1]
  exact congrArg (Option.map _) ho.2

/-- A union that begins where the section ends. -/
theorem layout_beginUnion (ho : st.layout.IsOpen place body) (word : Token) :
    (st.beginUnion word).layout =
      { st.layout with unions := ⟨body.bytes.size, 0⟩ :: st.unions } := by
  rw [beginUnion, offset?_of_isOpen ho]
  rfl

/-- The next member of the innermost union. -/
theorem layout_nextMember (ho : st.layout.IsOpen place body) {u : Union} {outer : List Union}
    (hu : st.unions = u :: outer) (word : Token) :
    (st.nextMember word).layout = st.layout.nextMember place body.bytes.size u outer := by
  rw [nextMember, countMember?, offset?_of_isOpen ho, hu]
  show { (st.mapBytes (·.take u.offset)).layout with
    unions := { u with length := max u.length (body.bytes.size - u.offset) } :: outer
    patches := st.patches.filter (keepsPatch st.current u.offset) } = _
  rw [st.layout_mapBytes ho.1, show st.current = some place from ho.1]
  rfl

/-- The end of the innermost union. -/
theorem layout_endUnion (ho : st.layout.IsOpen place body) {u : Union} {outer : List Union}
    (hu : st.unions = u :: outer) (word : Token) :
    (st.endUnion word).layout =
      st.layout.endUnion place body.bytes.size u outer st.options.pad := by
  rw [endUnion, countMember?, offset?_of_isOpen ho, hu]
  show { (st.mapBytes (resize · _ st.options.pad)).layout with unions := outer } = _
  rw [st.layout_mapBytes ho.1]
  rfl

end State

/-! ## Between the lines of a union -/

/-- Where a union begins: in a section as it is then, with the patches that are queued and inside of
other unions. -/
structure UnionStart where
  place : String
  body : Section
  patches : Array Patch
  outer : List Union

/-- The offset at which every member begins. -/
def UnionStart.offset (start : UnionStart) : Nat := start.body.bytes.size

/-- The patches that are queued lie in front of the union. -/
def UnionStart.Clear (start : UnionStart) : Prop :=
  ∀ p ∈ start.patches, p.place = start.place → p.offset < start.offset

/-- A layout between two lines of a union, whose members so far were at most `longest` bytes long.
The current member has placed some bytes and queued some patches, and inside of it there are
`inner` unions. -/
structure Within (start : UnionStart) (longest : Nat) (bytes : Array UInt8) (new : List Patch)
    (inner : List Union) (l : Layout) : Prop where
  current : l.current = some start.place
  body : l.sections.get? start.place =
    some { start.body with bytes := start.body.bytes ++ bytes }
  patches : l.patches = start.patches ++ new.toArray
  behind : ∀ p ∈ new, p.place = start.place ∧ start.offset ≤ p.offset
  unions : l.unions = inner ++ ⟨start.offset, longest⟩ :: start.outer
  nested : ∀ u ∈ inner, start.offset ≤ u.offset

namespace Within

variable {start : UnionStart} {longest : Nat} {bytes : Array UInt8} {new : List Patch}
  {inner : List Union} {a b : Layout}

theorem isOpen (h : Within start longest bytes new inner a) :
    a.IsOpen start.place { start.body with bytes := start.body.bytes ++ bytes } :=
  ⟨h.current, h.body⟩

/-- No inner union is open where only the union itself is. -/
theorem inner_eq_nil (h : Within start longest bytes new inner a)
    (hlength : a.unions.length = start.outer.length + 1) : inner = [] := by
  rw [h.unions, List.length_append, List.length_cons] at hlength
  apply List.eq_nil_of_length_eq_zero
  omega

/-- The size of the section while a member is placed. -/
theorem size_eq (start : UnionStart) (bytes : Array UInt8) :
    (start.body.bytes ++ bytes).size = start.offset + bytes.size :=
  Array.size_append

/-- Lines that write at the end of the section go on with the member. -/
theorem fills (h : Within start longest bytes new inner a) (hf : Fills a b) :
    ∃ bytes' new', Within start longest bytes' new' inner b := by
  obtain ⟨more, later, hbody, hpatches, hlater⟩ := hf.grown _ _ h.isOpen
  refine ⟨bytes ++ more, new ++ later, hf.current.trans h.current, ?_, ?_, ?_,
    hf.unions.trans h.unions, h.nested⟩
  · rw [hbody, Array.append_assoc]
  · rw [hpatches, h.patches, Array.append_assoc]
    simp
  · intro p hp
    rcases List.mem_append.1 hp with hp | hp
    · exact h.behind p hp
    · obtain ⟨hplace, hle⟩ := hlater p hp
      simp only [size_eq] at hle
      exact ⟨hplace, by omega⟩

/-- Patches in front of a cut survive it, and patches of the member do if they begin before it. -/
theorem filter_patches (hclear : start.Clear) (h : Within start longest bytes new inner a)
    {cut : Nat} (hcut : start.offset ≤ cut) :
    a.patches.filter (State.keepsPatch (some start.place) cut) =
      start.patches ++ (new.filter (State.keepsPatch (some start.place) cut)).toArray := by
  have hold : start.patches.filter (State.keepsPatch (some start.place) cut) = start.patches := by
    rw [Array.filter_eq_self]
    intro p hp
    by_cases hplace : p.place = start.place
    · have hlt := hclear p hp hplace
      simp [State.keepsPatch]
      omega
    · simp [State.keepsPatch, hplace]
  rw [h.patches, Array.filter_append Array.size_append, hold]
  simp

/-- Bytes that are cut off behind the start of a union. -/
theorem take_bytes (start : UnionStart) (bytes : Array UInt8) {cut : Nat}
    (hcut : start.offset ≤ cut) :
    (start.body.bytes ++ bytes).take cut =
      start.body.bytes ++ bytes.take (cut - start.offset) := by
  apply Array.toList_inj.1
  have hold : start.body.bytes.toList.take cut = start.body.bytes.toList :=
    List.take_of_length_le hcut
  rw [← Array.shrink_eq_take, ← Array.shrink_eq_take, Array.toList_shrink, Array.toList_append,
    Array.toList_append, Array.toList_shrink, List.take_append, hold]
  rfl

/-- Only the labels are others. -/
theorem relabelled (h : Within start longest bytes new inner a) (labels : Table Label) :
    Within start longest bytes new inner { a with labels } :=
  ⟨h.current, h.body, h.patches, h.behind, h.unions, h.nested⟩

/-- A union begins inside the member. -/
theorem begin_inner (h : Within start longest bytes new inner a) :
    Within start longest bytes new (⟨start.offset + bytes.size, 0⟩ :: inner)
      { a with unions := ⟨start.offset + bytes.size, 0⟩ :: a.unions } where
  current := h.current
  body := h.body
  patches := h.patches
  behind := h.behind
  unions := congrArg (_ :: ·) h.unions
  nested := List.forall_mem_cons.2 ⟨Nat.le_add_right _ _, h.nested⟩

/-- The member is taken back as a whole, and the next one begins. -/
theorem next_own (hclear : start.Clear) (h : Within start longest bytes new [] a) :
    Within start (max longest bytes.size) #[] [] []
      (a.nextMember start.place (start.offset + bytes.size) ⟨start.offset, longest⟩
        start.outer) where
  current := h.current
  body := by
    have hall : (start.body.bytes ++ bytes).take start.offset = start.body.bytes ++ #[] := by
      rw [take_bytes start bytes (Nat.le_refl _), Nat.sub_self]
      simp
    refine (h.isOpen.get?_mapBytes (·.take start.offset)).trans ?_
    rw [hall]
  patches := by
    have hnone : new.filter (State.keepsPatch (some start.place) start.offset) = [] := by
      rw [List.filter_eq_nil_iff]
      intro p hp
      obtain ⟨hplace, hle⟩ := h.behind p hp
      simpa [State.keepsPatch, hplace] using hle
    refine (filter_patches hclear h (Nat.le_refl _)).trans ?_
    rw [hnone]
  behind := by simp
  unions := by
    simp [Layout.nextMember, mapBytes]
  nested := by simp

/-- An inner union goes on with its next member: what is cut off belongs to the member. -/
theorem next_inner (hclear : start.Clear) {u : Union}
    (h : Within start longest bytes new (u :: inner) a) :
    ∃ bytes' new' u', Within start longest bytes' new' (u' :: inner)
      (a.nextMember start.place (start.offset + bytes.size) u
        (inner ++ ⟨start.offset, longest⟩ :: start.outer)) := by
  obtain ⟨hu, hnested⟩ := List.forall_mem_cons.1 h.nested
  refine ⟨bytes.take (u.offset - start.offset),
    new.filter (State.keepsPatch (some start.place) u.offset), _, h.current, ?_,
    filter_patches hclear h hu, fun p hp => h.behind p (List.mem_of_mem_filter hp), rfl,
    List.forall_mem_cons.2 ⟨hu, hnested⟩⟩
  refine (h.isOpen.get?_mapBytes (·.take u.offset)).trans ?_
  rw [take_bytes start bytes hu]

/-- An inner union ends: it is filled up behind what it has. -/
theorem end_inner {u : Union} (h : Within start longest bytes new (u :: inner) a) (pad : UInt8) :
    ∃ bytes', Within start longest bytes' new inner
      (a.endUnion start.place (start.offset + bytes.size) u
        (inner ++ ⟨start.offset, longest⟩ :: start.outer) pad) := by
  let size := u.offset + max u.length (start.offset + bytes.size - u.offset)
  have hsize : (start.body.bytes ++ bytes).size ≤ size := by
    rw [size_eq]
    omega
  refine ⟨bytes ++ Array.replicate (size - (start.body.bytes ++ bytes).size) pad, h.current, ?_,
    h.patches, h.behind, rfl, (List.forall_mem_cons.1 h.nested).2⟩
  refine (h.isOpen.get?_mapBytes (State.resize · size pad)).trans ?_
  rw [resize_eq_append hsize pad, Array.append_assoc]

/-- The union itself ends, filled up to its longest member. -/
theorem end_own (h : Within start longest bytes new [] a) (pad : UInt8) :
    let b := a.endUnion start.place (start.offset + bytes.size) ⟨start.offset, longest⟩
      start.outer pad
    b.IsOpen start.place
        { start.body with
          bytes := start.body.bytes ++ bytes ++
            Array.replicate (max longest bytes.size - bytes.size) pad } ∧
      b.patches = start.patches ++ new.toArray ∧ b.unions = start.outer := by
  let size := start.offset + max longest (start.offset + bytes.size - start.offset)
  have hsize : (start.body.bytes ++ bytes).size ≤ size := by
    rw [size_eq]
    omega
  have hlack : size - (start.body.bytes ++ bytes).size = max longest bytes.size - bytes.size := by
    rw [size_eq]
    omega
  refine ⟨⟨h.current, ?_⟩, h.patches, rfl⟩
  refine (h.isOpen.get?_mapBytes (State.resize · size pad)).trans ?_
  rw [resize_eq_append hsize pad, hlack]

end Within

/-- Only the keywords of unions shape the open section and leave it open. -/
theorem Keyword.eq_of_shapesLayout {k : Keyword} :
    k.shapesLayout ≠ false → k.switchesSection = false → k = .union ∨ k = .nextu ∨ k = .endu := by
  cases k <;> decide

namespace Assembler

/-! ## Lines -/

/-- A label in front of a keyword writes no bytes, whatever the keyword then does. -/
theorem writes_withKeyword (asm : Assembler) (label : Option LabelDef) (word : Token) (count : Nat)
    {body : Keyword → Assembler → Assembler}
    (hbody : ∀ keyword, Keyword.ofWord? word.text = some keyword →
      (keyword.checksOwnArity || keyword.arity.accepts count) = true → ∀ asm : Assembler,
        Writes asm.state.layout (body keyword asm).state.layout) :
    Writes asm.state.layout (asm.withKeyword label word count body).state.layout := by
  unfold withKeyword
  cases hk : Keyword.ofWord? word.text with
  | none => exact .refl
  | some keyword =>
    have hlabel := asm.writes_labelled keyword.namesLabel label
    dsimp only
    generalize (if keyword.namesLabel = true then asm else _) = asm' at hlabel ⊢
    split
    · rename_i harity
      exact hlabel.trans (hbody keyword hk harity asm')
    · exact hlabel

/-- What a line does that begins or ends no union and no member, and that keeps to its section. -/
theorem writes_execute (asm : Assembler) {line : Line}
    (h : ∀ k ∈ line.word?, k.shapesLayout = false) :
    Writes asm.state.layout (execute none line asm).state.layout := by
  unfold execute
  cases hop : line.operation with
  | none => exact asm.state.writes_defineLabel? _
  | some op =>
    cases op with
    | directive word args => exact State.writes_of_layout_eq (asm.layout_directive word)
    | assign word e =>
      exact State.writes_of_layout_eq ((asm.state.differs_assign _ word e).layout rfl)
    | opcode word args => exact asm.writes_instruction _ word args
    | keyword word args =>
      apply asm.writes_withKeyword
      intro keyword hk harity asm'
      have hword : line.word? = some keyword := Line.IsKeyword.word?_eq ⟨hop, hk, harity⟩
      exact asm'.writes_keywordBody (h keyword hword) _ word args
    | options word args =>
      apply asm.writes_withKeyword
      intro keyword _ _ asm'
      exact State.writes_of_layout_eq (asm'.layout_optionBody keyword args)
    | macroCall name args =>
      dsimp only
      rw [layout_callMacro]
      exact asm.state.writes_defineLabel? _

/-- A line that shapes nothing writes behind the end at most. -/
theorem writes_visit {v : Visit} (h : ∀ k ∈ v.word?, k.shapesLayout = false) :
    Writes v.before.state.layout (runLine none v.line v.text v.before).state.layout := by
  cases hp : parsed? v.line v.text v.before with
  | none =>
    obtain ⟨diagnostics, hrun⟩ := runLine_of_not_parsed none hp
    rw [hrun]
    exact .refl
  | some found =>
    rw [runLine_of_parsed? none hp, ← layout_of_parsed? hp]
    apply found.2.writes_execute
    intro k hk
    apply h k
    rw [Visit.word?, hp]
    exact hk

/-- The layout of an assembler without its labels. -/
def unlabelled (asm : Assembler) : Layout := { asm.state.layout with labels := {} }

/-- A label is not seen without the labels. -/
theorem unlabelled_of_layout {a b : Assembler} {labels : Table Label}
    (h : b.state.layout = { a.state.layout with labels }) : b.unlabelled = a.unlabelled := by
  rw [unlabelled, h]
  rfl

/-- An expansion begins with no more than a label and ends with nothing. -/
theorem unlabelled_expansionOf? {v : Visit} {x : Expansion}
    (hx : expansionOf? v.line v.text v.before = some x) :
    x.opened.unlabelled = v.before.unlabelled ∧ ∀ a, (x.close a).unlabelled = a.unlabelled := by
  obtain ⟨⟨parsed, asm⟩, hp, hx⟩ := Option.bind_eq_some_iff.1 hx
  obtain ⟨asm', hasm, henters⟩ := asm.expansion?_enters hx
  have hlabel : asm'.unlabelled = v.before.unlabelled := by
    obtain ⟨labels, hlabels⟩ := asm.state.defineLabel?_layout parsed.label
    have hparsed : asm.unlabelled = v.before.unlabelled :=
      unlabelled_of_layout (layout_of_parsed? hp)
    rcases hasm with rfl | rfl
    · exact hparsed
    · exact (unlabelled_of_layout (a := asm) hlabels).trans hparsed
  have hkeeps := henters.keepsLayout
  refine ⟨?_, fun a => ?_⟩
  · rw [← hlabel, unlabelled, hkeeps.1]
    rfl
  · rw [unlabelled, hkeeps.2 a]
    rfl

/-! ## From moment to moment -/

/-- One step of a run: a line is carried out, or the layout stays what it is but for its labels. -/
inductive LineStep : Moment → Moment → Prop
  | line (v : Visit) (h : v.after = runLine none v.line v.text v.before) :
      LineStep ⟨v, false⟩ ⟨v, true⟩
  | quiet {m n : Moment} (h : n.asm.unlabelled = m.asm.unlabelled)
      (hm : m.done = true ∨
        (expansionOf? m.visit.line m.visit.text m.visit.before).isSome = true) :
      LineStep m n

/-- A run is a chain of lines, each of which is a step of the layout. -/
theorem compositional_lineStep :
    Compositional fun _ a ms b => ChainAlong LineStep unlabelled a ms b :=
  compositional_chainAlong (fun _ _ h hm => .quiet h hm) (fun v h => .line v h)
    (fun _ _ hx => unlabelled_expansionOf? hx) (fun _ _ _ => rfl) (fun _ _ _ _ _ _ => rfl)

/-- A `NEXTU` line begins where a number of unions is open. -/
def Moment.endsMember (height : Nat) (m : Moment) : Bool :=
  !m.done && m.visit.word? == some .nextu && m.visit.before.state.unions.length == height

theorem asm_of_endsMember {height : Nat} {m : Moment} (h : m.endsMember height = true) :
    m.asm = m.visit.before := by
  simp only [Moment.endsMember, Bool.and_eq_true, Bool.not_eq_eq_eq_not, Bool.not_true] at h
  simp [Moment.asm, h.1.1]

section Step

variable {start : UnionStart} {longest : Nat} {bytes : Array UInt8} {new : List Patch}
  {inner : List Union} {v : Visit} {m n : Moment}

/-- The layout in which the keyword of a line is carried out. -/
theorem within_labelled (h : Within start longest bytes new inner v.before.state.layout) :
    Within start longest bytes new inner v.labelled.state.layout := by
  obtain ⟨labels, hlayout⟩ := exists_layout_labelled v
  rw [hlayout]
  exact h.relabelled labels

/-- `NEXTU` at the height of the union ends a member. -/
theorem within_next_own (hclear : start.Clear) (hword : v.word? = some .nextu)
    (h : Within start longest bytes new [] v.before.state.layout) :
    Within start (max longest bytes.size) #[] [] []
      (runLine none v.line v.text v.before).state.layout := by
  obtain ⟨label, word, args, hrun⟩ := exists_keywordBody hword rfl rfl
  have hlabelled := within_labelled h
  have hlayout := State.layout_nextMember hlabelled.isOpen hlabelled.unions word
  rw [Within.size_eq] at hlayout
  rw [hrun]
  show Within start _ #[] [] [] (v.labelled.state.nextMember word).layout
  rw [hlayout]
  exact hlabelled.next_own hclear

/-- Every other line of a union goes on with its member, as long as it does not end the union. -/
theorem within_line (hclear : start.Clear) (hsection : ∀ k ∈ v.word?, k.switchesSection = false)
    (h : Within start longest bytes new inner v.before.state.layout)
    (hnext : v.word? = some .nextu → inner ≠ [])
    (hheight : start.outer.length <
      (runLine none v.line v.text v.before).state.unions.length) :
    ∃ bytes' new' inner', Within start longest bytes' new' inner'
      (runLine none v.line v.text v.before).state.layout := by
  have hlabelled := within_labelled h
  by_cases hshapes : ∀ k ∈ v.word?, k.shapesLayout = false
  · obtain ⟨bytes', new', hafter⟩ := h.fills (writes_visit hshapes).fills
    exact ⟨bytes', new', inner, hafter⟩
  · push Not at hshapes
    obtain ⟨k, hk, hshape⟩ := hshapes
    rcases Keyword.eq_of_shapesLayout hshape (hsection k hk) with rfl | rfl | rfl
    · obtain ⟨label, word, args, hrun⟩ := exists_keywordBody hk rfl rfl
      rw [hrun]
      refine ⟨bytes, new, ⟨start.offset + bytes.size, 0⟩ :: inner, ?_⟩
      show Within start longest bytes new _ (v.labelled.state.beginUnion word).layout
      rw [State.layout_beginUnion hlabelled.isOpen, Within.size_eq]
      exact hlabelled.begin_inner
    · obtain ⟨label, word, args, hrun⟩ := exists_keywordBody hk rfl rfl
      cases inner with
      | nil => exact absurd rfl (hnext hk)
      | cons u inner =>
        obtain ⟨bytes', new', u', hafter⟩ := hlabelled.next_inner hclear
        refine ⟨bytes', new', u' :: inner, ?_⟩
        rw [hrun]
        show Within start longest bytes' new' _ (v.labelled.state.nextMember word).layout
        rw [State.layout_nextMember hlabelled.isOpen hlabelled.unions, Within.size_eq]
        exact hafter
    · obtain ⟨label, word, args, hrun⟩ := exists_keywordBody hk rfl rfl
      cases inner with
      | nil =>
        have hunions : (runLine none v.line v.text v.before).state.unions = start.outer := by
          rw [hrun]
          show (v.labelled.state.endUnion word).layout.unions = start.outer
          rw [State.layout_endUnion hlabelled.isOpen hlabelled.unions]
          rfl
        rw [hunions] at hheight
        exact absurd hheight (Nat.lt_irrefl _)
      | cons u inner =>
        obtain ⟨bytes', hafter⟩ := hlabelled.end_inner v.labelled.state.options.pad
        refine ⟨bytes', new, inner, ?_⟩
        rw [hrun]
        show Within start longest bytes' new inner (v.labelled.state.endUnion word).layout
        rw [State.layout_endUnion hlabelled.isOpen hlabelled.unions, Within.size_eq]
        exact hafter

/-- What a step leaves unsaid between the lines of a union. -/
theorem within_of_unlabelled {a b : Assembler} (h : b.unlabelled = a.unlabelled)
    (ha : Within start longest bytes new inner a.state.layout) :
    Within start longest bytes new inner b.state.layout := by
  have hb := ha.relabelled {}
  change Within start longest bytes new inner a.unlabelled at hb
  rw [← h] at hb
  exact hb.relabelled b.state.labels

/-- A step that ends a member, at which no union inside is open. -/
theorem step_of_endsMember (hclear : start.Clear) (hs : LineStep m n)
    (hm : m.endsMember (start.outer.length + 1) = true)
    (h : Within start longest bytes new inner m.visit.before.state.layout) :
    inner = [] ∧ n = ⟨m.visit, true⟩ ∧
      Within start (max longest bytes.size) #[] [] [] n.asm.state.layout := by
  simp only [Moment.endsMember, Bool.and_eq_true, Bool.not_eq_eq_eq_not, Bool.not_true,
    beq_iff_eq] at hm
  obtain ⟨⟨hbegun, hword⟩, hheight⟩ := hm
  obtain rfl := h.inner_eq_nil hheight
  cases hs with
  | line v hafter =>
    refine ⟨rfl, rfl, ?_⟩
    show Within start _ #[] [] [] v.after.state.layout
    rw [hafter]
    exact within_next_own hclear hword h
  | quiet hquiet hdone =>
    have hnone := expansionOf?_of_word? hword rfl (by simp) (by simp)
    rw [hnone, hbegun] at hdone
    exact absurd hdone (by simp)

/-- A step that ends no member and not the union. -/
theorem step_of_not_endsMember (hclear : start.Clear) (hs : LineStep m n)
    (hm : m.endsMember (start.outer.length + 1) = false)
    (hsection : ∀ k ∈ m.visit.word?, k.switchesSection = false)
    (h : Within start longest bytes new inner m.asm.state.layout)
    (hheight : start.outer.length < n.asm.state.unions.length) :
    ∃ bytes' new' inner', Within start longest bytes' new' inner' n.asm.state.layout := by
  cases hs with
  | line v hafter =>
    have hnext : v.word? = some .nextu → inner ≠ [] := by
      rintro hword rfl
      have hlength : v.before.state.unions.length = start.outer.length + 1 :=
        congrArg List.length h.unions
      simp [Moment.endsMember, hword, hlength] at hm
    have hunions : v.after.state.unions.length =
        (runLine none v.line v.text v.before).state.unions.length := by rw [hafter]
    show ∃ bytes' new' inner', Within start longest bytes' new' inner' v.after.state.layout
    rw [hafter]
    refine within_line hclear hsection h hnext ?_
    rw [← hunions]
    exact hheight
  | quiet hquiet hdone => exact ⟨bytes, new, inner, within_of_unlabelled hquiet h⟩

end Step

/-! ## Blocks -/

/-- The lines that end members, in a stretch of a run where a number of unions is open. -/
def memberEnds (height : Nat) (ms : List Moment) : List Visit :=
  (ms.filter (Moment.endsMember height)).map Moment.visit

/-- How many bytes a member has placed when a line ends it. -/
def memberSize (offset : Nat) (x : Visit) : Nat := x.before.state.openBytes.length - offset

/-- The ends of members are found one after the other. -/
theorem memberEnds_cons (height : Nat) (m : Moment) (ms : List Moment) :
    memberEnds height (m :: ms) =
      if m.endsMember height then m.visit :: memberEnds height ms else memberEnds height ms := by
  unfold memberEnds
  rw [List.filter_cons]
  split <;> rfl

section Block

variable {start : UnionStart} {longest : Nat} {bytes : Array UInt8} {new : List Patch}
  {inner : List Union}

/-- Inside a member, the open section is what stood in front of the union and the bytes of the
member. -/
theorem openBytes_of_within {st : State} (h : Within start longest bytes new inner st.layout) :
    st.openBytes = start.body.bytes.toList ++ bytes.toList := by
  rw [State.openBytes_of_isOpen h.isOpen, Array.toList_append]

/-- The bytes of a member are counted from the start of the union. -/
theorem memberSize_of_within {x : Visit}
    (h : Within start longest bytes new inner x.before.state.layout) :
    memberSize start.offset x = bytes.size := by
  rw [memberSize, openBytes_of_within h, List.length_append, Array.length_toList,
    Array.length_toList, UnionStart.offset, Nat.add_sub_cancel_left]

/-- A member ends at a line, and the next one begins behind it. -/
def Ends (start : UnionStart) (x : Visit) : Prop :=
  (∃ longest bytes new, Within start longest bytes new [] x.before.state.layout) ∧
    ∃ longest, Within start longest #[] [] [] x.after.state.layout

/-- Inside a block, from any moment up to the line that ends the union: members are taken back
whenever they end, and the longest one is counted. -/
theorem within_along (hclear : start.Clear) {w : Visit}
    (hlast : w.before.state.unions.length = start.outer.length + 1) (ms : List Moment) :
    ∀ (m : Moment) (longest : Nat) (bytes : Array UInt8) (new : List Patch) (inner : List Union),
      (m :: (ms ++ [⟨w, false⟩])).IsChain LineStep →
      (∀ n ∈ m :: ms, ∀ k ∈ n.visit.word?, k.switchesSection = false) →
      (∀ n ∈ ms, start.outer.length < n.asm.state.unions.length) →
      Within start longest bytes new inner m.asm.state.layout →
        (∀ x ∈ memberEnds (start.outer.length + 1) (m :: ms), Ends start x) ∧
          ∃ bytes' new', Within start
            (((memberEnds (start.outer.length + 1) (m :: ms)).map
              (memberSize start.offset)).foldl max longest)
            bytes' new' [] w.before.state.layout := by
  induction ms with
  | nil =>
    intro m longest bytes new inner hchain hsection _ h
    have hstep : LineStep m ⟨w, false⟩ := (List.isChain_cons_cons.1 hchain).1
    cases hm : m.endsMember (start.outer.length + 1) with
    | true =>
      rw [asm_of_endsMember hm] at h
      exact absurd (congrArg Moment.done (step_of_endsMember hclear hstep hm h).2.1) (by simp)
    | false =>
      have hnone : memberEnds (start.outer.length + 1) [m] = [] := by
        rw [memberEnds_cons, hm]
        rfl
      obtain ⟨bytes', new', inner', hw⟩ := step_of_not_endsMember hclear hstep hm
        (hsection m List.mem_cons_self) h (show _ < w.before.state.unions.length by omega)
      obtain rfl := hw.inner_eq_nil hlast
      rw [hnone]
      exact ⟨by simp, bytes', new', hw⟩
  | cons n ms ih =>
    intro m longest bytes new inner hchain hsection hheight h
    obtain ⟨hstep, hrest⟩ := List.isChain_cons_cons.1 hchain
    have htame := (List.forall_mem_cons.1 hsection).1
    replace hsection := (List.forall_mem_cons.1 hsection).2
    have hn := (List.forall_mem_cons.1 hheight).1
    replace hheight := (List.forall_mem_cons.1 hheight).2
    rw [memberEnds_cons]
    cases hm : m.endsMember (start.outer.length + 1) with
    | true =>
      rw [asm_of_endsMember hm] at h
      obtain ⟨rfl, rfl, hnext⟩ := step_of_endsMember hclear hstep hm h
      obtain ⟨hends, hw⟩ := ih ⟨m.visit, true⟩ _ _ _ _ hrest hsection hheight hnext
      rw [if_pos rfl, List.map_cons, List.foldl_cons, memberSize_of_within h]
      exact ⟨List.forall_mem_cons.2 ⟨⟨⟨_, _, _, h⟩, _, hnext⟩, hends⟩, hw⟩
    | false =>
      obtain ⟨bytes', new', inner', hnext⟩ :=
        step_of_not_endsMember hclear hstep hm htame h hn
      rw [if_neg (by simp)]
      exact ih n longest bytes' new' inner' hrest hsection hheight hnext

end Block

/-- A block of a run, from the end of the line `v` that begins a union in an open section up to the
beginning of the line `w` that ends it. Unions inside are complete, and none of the lines opens a
section, sets one aside or goes back to one. -/
structure UnionBlock (moments : List Moment) (v : Visit) (body : List Moment) (w : Visit) :
    Prop where
  around : ∃ past rest, moments = past ++ ⟨v, true⟩ :: (body ++ ⟨w, false⟩ :: rest)
  begins : v.word? = some .union
  inSection : v.before.state.section?.isSome = true
  ends : w.word? = some .endu
  complete : w.before.state.unions.length = v.after.state.unions.length
  nested : ∀ m ∈ body, v.after.state.unions.length ≤ m.asm.state.unions.length
  within : ∀ m ∈ body, ∀ k ∈ m.visit.word?, k.switchesSection = false

/-- The `NEXTU` lines of the union itself. -/
def turnsOf (v : Visit) (body : List Moment) : List Visit :=
  memberEnds v.after.state.unions.length body

/-- What a member has placed when a line ends it. -/
def memberAt (v x : Visit) : List UInt8 :=
  x.before.state.openBytes.drop v.before.state.openBytes.length

/-- The length of the longest member. -/
def longestMember (v : Visit) (body : List Moment) (w : Visit) : Nat :=
  ((turnsOf v body ++ [w]).map fun x => (memberAt v x).length).foldl max 0

/-- What a union leaves behind. -/
structure UnionResult (v : Visit) (body : List Moment) (w : Visit) : Prop where
  /-- Every member begins with what the section held before the union. -/
  begun : ∀ x ∈ v :: turnsOf v body, x.after.state.current = v.before.state.current ∧
    x.after.state.openBytes = v.before.state.openBytes ∧
    x.after.state.patches = v.before.state.patches
  /-- A member places bytes and queues patches behind that. -/
  placed : ∀ x ∈ turnsOf v body ++ [w], x.before.state.current = v.before.state.current ∧
    x.before.state.openBytes = v.before.state.openBytes ++ memberAt v x ∧
    v.before.state.patches.toList <+: x.before.state.patches.toList
  current : w.after.state.current = v.before.state.current
  /-- In the end the last member is there, filled up to the longest one. -/
  bytes : w.after.state.openBytes = v.before.state.openBytes ++ memberAt v w ++
    List.replicate (longestMember v body w - (memberAt v w).length) w.before.state.options.pad
  patches : w.after.state.patches = w.before.state.patches
  unions : w.after.state.unions = v.before.state.unions

section Result

variable {start : UnionStart} {longest : Nat} {bytes : Array UInt8} {new : List Patch}
  {v w x : Visit}

/-- The union of a line begins in the section that is open, as it is. -/
structure BeginsAt (start : UnionStart) (v : Visit) : Prop where
  isOpen : v.before.state.layout.IsOpen start.place start.body
  patches : start.patches = v.before.state.patches
  outer : start.outer = v.before.state.unions

theorem BeginsAt.openBytes (h : BeginsAt start v) :
    v.before.state.openBytes = start.body.bytes.toList :=
  State.openBytes_of_isOpen h.isOpen

theorem BeginsAt.length_openBytes (h : BeginsAt start v) :
    v.before.state.openBytes.length = start.offset := by
  rw [h.openBytes, Array.length_toList]
  rfl

/-- The first member begins behind the `UNION` line. -/
theorem within_begun (hword : v.word? = some .union)
    (hsection : v.before.state.section?.isSome = true) :
    ∃ start, BeginsAt start v ∧ Within start 0 #[] [] [] v.after.state.layout := by
  obtain ⟨body, hbody⟩ := Option.isSome_iff_exists.1 hsection
  obtain ⟨place, ho⟩ := v.before.state.isOpen_of_section? hbody
  obtain ⟨label, word, args, hrun⟩ := exists_keywordBody hword rfl rfl
  obtain ⟨labels, hlayout⟩ := exists_layout_labelled v
  have ho' : v.labelled.state.layout.IsOpen place body := by
    rw [hlayout]
    exact ho
  have hafter : v.after.state.layout =
      { v.labelled.state.layout with
        unions := ⟨body.bytes.size, 0⟩ :: v.labelled.state.unions } := by
    rw [Visit.after_eq_runLine (Or.inr (expansionOf?_of_word? hword rfl (by simp) (by simp))), hrun]
    exact State.layout_beginUnion ho' word
  refine ⟨⟨place, body, v.before.state.patches, v.before.state.unions⟩, ⟨ho, rfl, rfl⟩, ?_⟩
  rw [hafter, show v.labelled.state.unions = v.before.state.unions from
    congrArg Layout.unions hlayout, hlayout]
  refine ⟨ho.1, ?_, ?_, by simp, rfl, by simp⟩
  · rw [Array.append_empty]
    exact ho.2
  · rw [Array.append_empty]
    rfl

/-- Patches that begin inside their sections lie in front of the union. -/
theorem clear_of_patchesInside (h : Within start longest #[] [] [] v.after.state.layout)
    (hinside : PatchesInside v.after.state.layout) : start.Clear := by
  intro p hp hplace
  have hmem : p ∈ v.after.state.layout.patches := by
    rw [h.patches, Array.append_empty]
    exact hp
  obtain ⟨body, hbody, hlt⟩ := hinside p hmem
  rw [hplace, h.body, Array.append_empty] at hbody
  obtain rfl := Option.some.inj hbody
  exact hlt

theorem length_memberAt (h : BeginsAt start v) (x : Visit) :
    (memberAt v x).length = memberSize start.offset x := by
  rw [memberAt, List.length_drop, memberSize, h.length_openBytes]

/-- What a member has placed is what lies behind the start of the union. -/
theorem memberAt_of_within (h : BeginsAt start v)
    (hx : Within start longest bytes new [] x.before.state.layout) :
    memberAt v x = bytes.toList := by
  rw [memberAt, openBytes_of_within hx, h.openBytes, List.drop_left]

/-- A line at which a member ends, or the union. -/
theorem placed_of_within (h : BeginsAt start v)
    (hx : Within start longest bytes new [] x.before.state.layout) :
    x.before.state.current = v.before.state.current ∧
      x.before.state.openBytes = v.before.state.openBytes ++ memberAt v x ∧
      v.before.state.patches.toList <+: x.before.state.patches.toList := by
  refine ⟨hx.current.trans h.isOpen.1.symm, ?_, ?_⟩
  · rw [openBytes_of_within hx, memberAt_of_within h hx, h.openBytes]
  · rw [← h.patches, show x.before.state.patches = _ from hx.patches, Array.toList_append]
    exact List.prefix_append _ _

/-- Right behind the end of a member the union is as it began. -/
theorem begun_of_within (h : BeginsAt start v)
    (hx : Within start longest #[] [] [] x.after.state.layout) :
    x.after.state.current = v.before.state.current ∧
      x.after.state.openBytes = v.before.state.openBytes ∧
      x.after.state.patches = v.before.state.patches := by
  refine ⟨hx.current.trans h.isOpen.1.symm, ?_, ?_⟩
  · rw [openBytes_of_within hx, h.openBytes, List.append_nil]
  · rw [← h.patches, show x.after.state.patches = _ from hx.patches, Array.append_empty]

/-- The layout behind the line that ends the union. -/
theorem layout_after_endu (hword : w.word? = some .endu)
    (h : Within start longest bytes new [] w.before.state.layout) :
    w.after.state.layout.IsOpen start.place
        { start.body with
          bytes := start.body.bytes ++ bytes ++
            Array.replicate (max longest bytes.size - bytes.size) w.before.state.options.pad } ∧
      w.after.state.patches = w.before.state.patches ∧
      w.after.state.unions = start.outer := by
  obtain ⟨label, word, args, hrun⟩ := exists_keywordBody hword rfl rfl
  have hlabelled := within_labelled h
  have hafter : w.after.state.layout =
      w.labelled.state.layout.endUnion start.place (start.offset + bytes.size)
        ⟨start.offset, longest⟩ start.outer w.before.state.options.pad := by
    rw [Visit.after_eq_runLine (Or.inr (expansionOf?_of_word? hword rfl (by simp) (by simp))), hrun,
      ← (List.cons.inj (optionStack_labelled_visit w)).1, ← Within.size_eq]
    exact State.layout_endUnion hlabelled.isOpen hlabelled.unions word
  obtain ⟨ho, hpatches, hunions⟩ := hlabelled.end_own w.before.state.options.pad
  rw [← hafter] at ho hpatches hunions
  exact ⟨ho, hpatches.trans h.patches.symm, hunions⟩

end Result

/-- In every run, patches begin inside their sections. -/
theorem patchesInside_along_run (config : Config) (files : FileStore) (sources : List Source) :
    ∀ asm ∈ (new config files).reached sources, PatchesInside asm.state.layout := by
  have hkept : Kept (fun _ => True) fun a b =>
      PatchesInside a.state.layout → PatchesInside b.state.layout :=
    kept_of_layout (Q := fun a b => PatchesInside a → PatchesInside b) (fun _ h => h)
      (fun h h' ha => h' (h ha)) (fun h ha => ha.edit h) fun _ _ _ h ha => ha.switch h
  have hstart : PatchesInside (new config files).state.layout := fun p hp =>
    absurd hp (by simp [new, State.layout, State.ofConfig])
  exact hkept.holds_reached sources hstart fun _ _ => trivial

/-! ## Main statement -/

/-- The union law. Whatever a run has done before, and whatever unions are nested in the members of
a block from `UNION` to `ENDU`: each member begins with the bytes and the patches that were there
before the union, and in the end there are these bytes, those of the last member, and the pad byte
in force at `ENDU` as often as the last member is shorter than the longest one. The patches are
those from before and those that are left of the last member, and the open unions are those from
before. -/
theorem union_result (config : Config) (files : FileStore) (sources : List Source) (v : Visit)
    (body : List Moment) (w : Visit)
    (h : UnionBlock ((new config files).historyOf sources) v body w) : UnionResult v body w := by
  obtain ⟨start, hstart, hbegun⟩ := within_begun h.begins h.inSection
  obtain ⟨past, rest, hsplit⟩ := h.around
  have hheight : v.after.state.unions.length = start.outer.length + 1 :=
    congrArg List.length hbegun.unions
  -- Patches lie inside of their sections, so none lies behind what is placed so far.
  have hclear : start.Clear := by
    apply clear_of_patchesInside hbegun
    apply patchesInside_along_run config files sources
    refine List.mem_cons_of_mem _ (List.mem_append_left _ (List.mem_map.2 ⟨⟨v, true⟩, ?_, rfl⟩))
    rw [hsplit]
    exact List.mem_append_right _ List.mem_cons_self
  -- The lines of the block stand one behind the other in the run.
  have hchain : ((⟨v, true⟩ : Moment) :: (body ++ [⟨w, false⟩])).IsChain LineStep := by
    have hsteps := (compositional_lineStep.of_sources sources (new config files)).steps
    rw [hsplit] at hsteps
    have htail := (List.isChain_append.1 hsteps).2.1
    rw [← List.cons_append, List.append_cons] at htail
    exact (List.isChain_append.1 htail).1
  have hsection : ∀ m ∈ (⟨v, true⟩ : Moment) :: body,
      ∀ k ∈ m.visit.word?, k.switchesSection = false := by
    refine List.forall_mem_cons.2 ⟨fun k hk => ?_, h.within⟩
    obtain rfl : Keyword.union = k := Option.some.inj (h.begins.symm.trans hk)
    rfl
  have hturns : memberEnds (start.outer.length + 1) (⟨v, true⟩ :: body) = turnsOf v body := by
    rw [memberEnds_cons, turnsOf, hheight]
    rfl
  -- Until its end is reached, the union itself stays open.
  have hinside : ∀ m ∈ body, start.outer.length < m.asm.state.unions.length := by
    intro m hm
    have hle := h.nested m hm
    omega
  obtain ⟨hends, bytes, new, hw⟩ := within_along hclear (h.complete.trans hheight) body ⟨v, true⟩
    0 #[] [] [] hchain hsection hinside hbegun
  rw [hturns] at hends hw
  -- The longest member is known from what was counted at the turns, and from the last member.
  have hlongest : longestMember v body w =
      max (((turnsOf v body).map (memberSize start.offset)).foldl max 0) bytes.size := by
    rw [longestMember, funext (length_memberAt hstart), List.map_append, List.foldl_append,
      ← memberSize_of_within hw]
    rfl
  obtain ⟨ho, hpatches, hunions⟩ := layout_after_endu h.ends hw
  exact
    { begun := List.forall_mem_cons.2 ⟨begun_of_within hstart hbegun, fun x hx => by
        obtain ⟨-, longest, hx⟩ := hends x hx
        exact begun_of_within hstart hx⟩
      placed := fun x hx => by
        rcases List.mem_append.1 hx with hx | hx
        · obtain ⟨⟨longest, bytes, new, hx⟩, -⟩ := hends x hx
          exact placed_of_within hstart hx
        · rw [List.mem_singleton.1 hx]
          exact placed_of_within hstart hw
      current := ho.1.trans hstart.isOpen.1.symm
      bytes := by
        rw [State.openBytes_of_isOpen ho, memberAt_of_within hstart hw, hlongest, hstart.openBytes]
        simp
      patches := hpatches
      unions := hunions.trans hstart.outer }

/-- The block between two moments of a run, `count + 1` apart, where there is one. -/
def block? (moments : List Moment) (start count : Nat) :
    Option (Visit × List Moment × Visit) := do
  let m ← moments[start]?
  let n ← moments[start + 1 + count]?
  let body := (moments.drop (start + 1)).take count
  let v := m.visit
  let w := n.visit
  if m.done && !n.done && v.word? == some .union && w.word? == some .endu &&
      v.before.state.section?.isSome &&
      w.before.state.unions.length == v.after.state.unions.length &&
      body.all fun b => v.after.state.unions.length ≤ b.asm.state.unions.length &&
        b.visit.word?.all fun k => !k.switchesSection then
    some (v, body, w)
  else none

/-- A block that is found begins with `UNION`, ends with its `ENDU` and stays open between them. -/
theorem unionBlock_of_block? {moments : List Moment} {start count : Nat}
    {found : Visit × List Moment × Visit} (h : block? moments start count = some found) :
    UnionBlock moments found.1 found.2.1 found.2.2 := by
  obtain ⟨⟨v, done⟩, hm, h⟩ := Option.bind_eq_some_iff.1 h
  obtain ⟨⟨w, done'⟩, hn, h⟩ := Option.bind_eq_some_iff.1 h
  obtain ⟨hguard, h⟩ := Option.ite_none_right_eq_some.1 h
  obtain rfl := Option.some.inj h
  simp only [Bool.and_eq_true, Bool.not_eq_eq_eq_not, Bool.not_true,
    beq_iff_eq, List.all_eq_true, decide_eq_true_eq, Option.all_eq_true] at hguard
  obtain ⟨⟨⟨⟨⟨⟨rfl, rfl⟩, hbegins⟩, hends⟩, hopen⟩, hcomplete⟩, hbody⟩ := hguard
  exact
    { around := ⟨_, _, split_of_getElem? hm hn⟩
      begins := hbegins
      inSection := hopen
      ends := hends
      complete := hcomplete
      nested := fun m hm => (hbody m hm).1
      within := fun m hm k hk => (hbody m hm).2 k hk }

/-- A union of two members, the first with a union of its own, the second with a patch from a
macro. -/
def nestedSource : Source :=
  .text "a" <| "word: MACRO\n dw later\n ENDM\n SECTION \"a\",ROM0\n db 1\n UNION\n dw later\n" ++
    " UNION\n db 5,6,7\n NEXTU\n db 8\n ENDU\n NEXTU\n word\n OPT p9\n ENDU\n"

theorem union_result_nestedSource :
    ∃ v body w, UnionBlock ((new {} (.memory {})).historyOf [nestedSource]) v body w ∧
      UnionResult v body w ∧ (turnsOf v body).map (memberAt v) = [[0, 0, 8, 0, 0]] ∧
      memberAt v w = [0, 0] ∧ w.after.state.openBytes = [1, 0, 0, 9, 9, 9] := by
  have hlines : ((block? ((new {} (.memory {})).historyOf [nestedSource]) 11 20).any
      fun found => (turnsOf found.1 found.2.1).map (memberAt found.1) == [[0, 0, 8, 0, 0]] &&
        memberAt found.1 found.2.2 == [0, 0] &&
        found.2.2.after.state.openBytes == [1, 0, 0, 9, 9, 9]) = true := by
    decide +kernel
  obtain ⟨⟨v, body, w⟩, hfound, hvalues⟩ := (Option.any_eq_true _ _).1 hlines
  simp only [Bool.and_eq_true, beq_iff_eq] at hvalues
  have hblock := unionBlock_of_block? hfound
  exact ⟨v, body, w, hblock, union_result _ _ _ v body w hblock, hvalues.1.1, hvalues.1.2,
    hvalues.2⟩

end Assembler

end Sm83Asm
