import Sm83Asm.Proofs.Execute.Part
import Sm83Asm.Proofs.Layout.Edit
import Sm83Asm.Proofs.Run.History

set_option autoImplicit false

/-!
# The layout along a run

What each keyword, each line and each expansion does to the layout, in terms of edits and switches.

Main statement: what is kept by every edit and every switch is kept by whole runs
(`kept_of_layout`).
-/

namespace Sm83Asm

open Layout

/-- Parts that the layout is made of. -/
def Part.inLayout : Part → Bool
  | .bytes | .places => true
  | _ => false

theorem State.Differs.layout {st st' : State} {part : Part} (h : st.Differs part st')
    (hpart : part.inLayout = false) : st'.layout = st.layout := by
  cases h with
  | bytes => exact absurd hpart (by decide)
  | places => exact absurd hpart (by decide)
  | _ => rfl

/-! ## Lines -/

/-- Keywords that open a section, set one aside or go back to one. -/
def Keyword.switchesSection : Keyword → Bool
  | .sectionStart | .pushs | .pops => true
  | _ => false

/-- Keywords that do this, and those that begin and end unions and their members. -/
def Keyword.shapesLayout (keyword : Keyword) : Bool :=
  keyword.switchesSection || [.union, .nextu, .endu].contains keyword

/-- Whether a line opens a section, sets one aside or goes back to one. -/
def Line.switchesSection (line : Line) : Bool :=
  match line.operation with
  | some (.keyword word _) => (Keyword.ofWord? word.text).any Keyword.switchesSection
  | _ => false

namespace Assembler

variable (asm : Assembler)

theorem writes_includeBytes (word : Token) (e : Expr) (start length : Option Expr) :
    Writes asm.state.layout (asm.includeBytes word e start length).state.layout := by
  obtain ⟨random, diagnostics, h | ⟨body, bytes, hs, h⟩⟩ :=
    asm.includeBytes_cases word e start length
  · exact State.writes_of_layout_eq (by rw [h]; rfl)
  · obtain ⟨place, ho⟩ := asm.state.isOpen_of_section? hs
    rw [h]
    exact { asm.state with random, diagnostics }.writes_emit ho bytes

/-- Every keyword that leaves unions and sections alone writes at most at the end of the open
section. -/
theorem writes_keywordBody {keyword : Keyword} (hk : keyword.shapesLayout = false)
    (label : Option LabelDef) (word : Token) (args : List Expr) :
    Writes asm.state.layout (asm.keywordBody none keyword label word args).state.layout := by
  cases hpart : keyword.part.inLayout with
  | false =>
    exact State.writes_of_layout_eq ((asm.differs_keywordBody keyword label word args).layout hpart)
  | true =>
    cases keyword with
    | db => exact State.writes_data _ _ _ _
    | dw => exact State.writes_data _ _ _ _
    | dl => exact State.writes_data _ _ _ _
    | ds =>
      rcases args with _ | ⟨count, fill⟩
      · exact .refl
      · exact State.writes_reserve _ _ _ _
    | incbin =>
      rcases args with _ | ⟨e, range⟩
      · exact .refl
      · exact writes_includeBytes _ _ _ _ _
    | exportName => exact State.writes_exportAll _ _
    | globalName => exact State.writes_exportAll _ _
    | purge => exact State.writes_purge _ _
    | union | nextu | endu | sectionStart | pushs | pops => exact absurd hk (by decide)
    | _ => exact absurd hpart (by decide)

theorem turns_keywordBody (keyword : Keyword) (label : Option LabelDef) (word : Token)
    (args : List Expr) :
    Turns keyword.switchesSection asm.state.layout
      (asm.keywordBody none keyword label word args).state.layout := by
  cases hk : keyword.shapesLayout with
  | false => exact Or.inl (asm.writes_keywordBody hk label word args).edits
  | true =>
    cases keyword with
    | union => exact Or.inl (State.edits_beginUnion _ _)
    | nextu => exact Or.inl (State.edits_nextMember _ _)
    | endu => exact Or.inl (State.edits_endUnion _ _)
    | sectionStart =>
      rcases args with _ | ⟨name, _ | ⟨kind, attrs⟩⟩
      · exact Or.inl .refl
      · exact Or.inl .refl
      · exact State.turns_beginSection _ _ _ _
    | pushs => exact State.turns_pushSection _
    | pops => exact State.turns_popSection _ _
    | _ => exact absurd hk (by decide)

theorem layout_optionBody (keyword : Keyword) (args : List Token) :
    (asm.optionBody keyword args).state.layout = asm.state.layout :=
  (asm.differs_optionBody keyword args).layout rfl

theorem layout_directive (word : Token) : (asm.directive word).state.layout = asm.state.layout := by
  obtain ⟨_, _, h⟩ := asm.directive_footprint word
  rw [h]
  rfl

theorem layout_callMacro (name : Token) (args : List Token) :
    (asm.callMacro none name args).state.layout = asm.state.layout := by
  obtain ⟨_, h⟩ := asm.callMacro_footprint name args
  rw [h]
  rfl

/-- Defining the label in front of an operation, or leaving it to the operation. -/
theorem writes_labelled (own : Bool) (label : Option LabelDef) :
    Writes asm.state.layout
      (if own then asm else asm.mapState (·.defineLabel? label)).state.layout := by
  cases own with
  | true => exact .refl
  | false => exact asm.state.writes_defineLabel? label

theorem turns_withKeyword {k : Bool} (label : Option LabelDef) (word : Token) (count : Nat)
    {body : Keyword → Assembler → Assembler}
    (hbody : ∀ keyword, Keyword.ofWord? word.text = some keyword → ∀ asm : Assembler,
      Turns k asm.state.layout (body keyword asm).state.layout) :
    Turns k asm.state.layout (asm.withKeyword label word count body).state.layout := by
  unfold withKeyword
  cases hk : Keyword.ofWord? word.text with
  | none => exact Or.inl .refl
  | some keyword =>
    have hlabel := asm.writes_labelled keyword.namesLabel label
    dsimp only
    generalize (if keyword.namesLabel = true then asm else _) = asm' at hlabel ⊢
    split
    · exact (hbody keyword hk asm').of_edits hlabel.edits hlabel.fills.unions
    · exact Or.inl hlabel.edits

theorem writes_instruction (label : Option LabelDef) (word : Token) (args : List Expr) :
    Writes asm.state.layout (asm.instruction label word args).state.layout := by
  unfold instruction mapState
  dsimp only
  cases hs : asm.state.section? with
  | none => exact .refl
  | some body =>
    obtain ⟨place, ho⟩ := asm.state.isOpen_of_section? hs
    obtain ⟨labels, hl⟩ := asm.state.defineLabel?_layout label
    have hlabel := asm.state.writes_defineLabel? label
    dsimp only
    generalize asm.state.defineLabel? label = st at hl hlabel ⊢
    have ho' : st.layout.IsOpen place body := by
      rw [hl]
      exact ho
    have hoffset : st.offset? = some body.bytes.size := by
      rw [State.offset?, State.section?, show st.current = some place from ho'.1]
      exact congrArg (Option.map _) ho'.2
    have hcode := st.writes_emitting ho' (st.scope.emits_encode ho'.1 hoffset word args)
    refine hlabel.trans ?_
    rcases hx : st.emitting (st.scope.encode word args) with ⟨_ | bytes, st'⟩
    · rw [hx] at hcode
      simpa only [Option.getD_none, State.layout_emit_empty] using hcode
    · rw [hx] at hcode
      exact hcode

/-- What a line does that expands to nothing, or that has no level left. -/
theorem turns_execute (line : Line) :
    Turns line.switchesSection asm.state.layout (execute none line asm).state.layout := by
  unfold execute Line.switchesSection
  rcases line.operation with _ | op
  · exact Or.inl (asm.state.writes_defineLabel? _).edits
  · cases op with
    | directive word args => exact Or.inl (State.edits_of_layout_eq (asm.layout_directive word))
    | assign word e =>
      have hassign := (asm.state.differs_assign line.label word e).layout rfl
      exact Or.inl (State.edits_of_layout_eq hassign)
    | keyword word args =>
      refine asm.turns_withKeyword _ _ _ fun keyword hk asm' => ?_
      simp only [hk, Option.any_some]
      exact asm'.turns_keywordBody keyword _ word args
    | options word args =>
      exact asm.turns_withKeyword _ _ _ fun keyword _ asm' =>
        Or.inl (State.edits_of_layout_eq (asm'.layout_optionBody keyword args))
    | opcode word args => exact Or.inl (asm.writes_instruction _ word args).edits
    | macroCall name args =>
      refine Or.inl ?_
      dsimp only
      rw [layout_callMacro]
      exact (asm.state.writes_defineLabel? _).edits

/-! ## Expansions -/

/-- An expansion begins with no more than a label and ends with nothing. -/
def Expansion.KeepsLayout (x : Expansion) (asm : Assembler) : Prop :=
  x.opened.state.layout = asm.state.layout ∧ ∀ a, (x.close a).state.layout = a.state.layout

theorem Expansion.Enters.keepsLayout {x : Expansion} (h : x.Enters asm.state) :
    x.KeepsLayout asm := by
  obtain ⟨_, _, _, _, _, _, _, hopened⟩ := h.opened
  refine ⟨by rw [hopened]; rfl, fun a => ?_⟩
  obtain ⟨_, _, _, hclosed⟩ := h.closed a
  rw [hclosed]
  rfl

theorem writes_expansion? {line : Line} {x : Expansion} (h : expansion? line asm = some x) :
    Writes asm.state.layout x.opened.state.layout ∧
      ∀ a, (x.close a).state.layout = a.state.layout := by
  obtain ⟨asm', hlabel, henters⟩ := asm.expansion?_enters h
  obtain ⟨hopened, hclosed⟩ := henters.keepsLayout
  refine ⟨?_, hclosed⟩
  rw [hopened]
  rcases hlabel with rfl | rfl
  · exact .refl
  · exact asm.state.writes_defineLabel? _

/-! ## Runs -/

/-- Whether the line of a visit opens a section, sets one aside or goes back to one. -/
def Visit.switchesSection (v : Visit) : Bool :=
  (parsed? v.line v.text v.before).any (·.1.switchesSection)

theorem layout_statement (line : Nat) (text : String) (st : State) :
    (statement line text st).2.layout = st.layout := by
  obtain ⟨diagnostics, h⟩ := statement_footprint line text st
  rw [h]
  rfl

theorem layout_of_parsed? {line : Nat} {text : String} {asm asm' : Assembler} {parsed : Line}
    (h : parsed? line text asm = some (parsed, asm')) : asm'.state.layout = asm.state.layout := by
  have hlayout := layout_statement line text { asm.state with line }
  obtain ⟨st, hst, rfl⟩ := of_parsed? h
  rw [hst] at hlayout
  exact hlayout

theorem turns_visit (v : Visit) :
    Turns v.switchesSection v.before.state.layout
      (runLine none v.line v.text v.before).state.layout := by
  have hlayout := layout_statement v.line v.text { v.before.state with line := v.line }
  unfold runLine Visit.switchesSection parsed?
  rcases hst : statement v.line v.text { v.before.state with line := v.line } with ⟨statement, st⟩
  rw [hst] at hlayout
  change st.layout = v.before.state.layout at hlayout
  rw [← hlayout]
  cases statement with
  | line parsed => exact turns_execute { v.before with state := st } parsed
  | ignored start => exact Or.inl .refl
  | invalid stop => exact Or.inl .refl

/-- What every edit and every switch keeps is kept by whole runs. -/
theorem kept_of_layout {test : Visit → Prop} {Q : Layout → Layout → Prop} (hrefl : ∀ a, Q a a)
    (htrans : ∀ {a b c}, Q a b → Q b c → Q a c) (hedit : ∀ {a b}, Edit a b → Q a b)
    (hswitch : ∀ {v : Visit} {a b}, test v → v.switchesSection = true →
      a.unions = v.before.state.unions → Switch a b → Q a b) :
    Kept test fun a b => Q a.state.layout b.state.layout := by
  have hedits : ∀ {a b}, Edits a b → Q a b := by
    intro a b h
    induction h with
    | refl => exact hrefl a
    | tail _ h ih => exact htrans ih (hedit h)
  have hopened : ∀ (v : Visit) (x : Expansion), expansionOf? v.line v.text v.before = some x →
      Q v.before.state.layout x.opened.state.layout ∧
        ∀ a, (x.close a).state.layout = a.state.layout := by
    intro v x hx
    obtain ⟨⟨parsed, asm⟩, hp, hx⟩ := Option.bind_eq_some_iff.1 hx
    obtain ⟨hopen, hclose⟩ := writes_expansion? asm hx
    rw [layout_of_parsed? hp] at hopen
    exact ⟨hedits hopen.edits, hclose⟩
  exact
    { refl := fun a => hrefl _
      trans := htrans
      plain := fun v hv => by
        rcases turns_visit v with h | ⟨hk, mid, hmid, hunions, h⟩
        · exact hedits h
        · exact htrans (hedits hmid) (hswitch hv hk hunions h)
      opened := fun v x _ hx => (hopened v x hx).1
      closed := fun v x hx a => by
        rw [(hopened v x hx).2 a]
        exact hrefl _
      fault := fun a cause token => hrefl a.state.layout
      moved := fun a files sources file line extensions => hrefl a.state.layout }

end Assembler

end Sm83Asm
