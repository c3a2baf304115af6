import Sm83Asm.Proofs.Execute.Setting

set_option autoImplicit false

/-!
# The part of a state that a keyword reaches

A keyword that carries out no further lines reaches one part of the state (`Keyword.part`). Apart
from random numbers and reports, the state afterwards differs from the one before in that part only
(`State.Differs`). What is read from the other parts is as it was, by one case for each part where
there would be one for each keyword.

Main statement: `differs_keywordBody`.
-/

namespace Sm83Asm

/-- Parts of a state. -/
inductive Part where
  /-- The bytes of the open section, with their patches and the unions among them. -/
  | bytes
  /-- Everything that is no setting: labels, sections and the tables of names. -/
  | places
  /-- Names for numbers and strings, and what goes with them. -/
  | values
  | branches
  | macros
  | arguments
  | repeats
  | options
deriving DecidableEq

/-- The part of the state that a keyword reaches. -/
def Keyword.part : Keyword → Part
  | .db | .dw | .dl | .ds | .union | .nextu | .endu | .incbin => .bytes
  | .exportName | .globalName | .purge | .sectionStart | .pushs | .pops => .places
  | .ifTrue | .elseIf | .elseAll | .endIf => .branches
  | .macroStart | .macroEnd => .macros
  | .shift => .arguments
  | .rept | .endr => .repeats
  | .opt | .pusho | .popo => .options
  | _ => .values

namespace State

/-- What a state may become when only one part of it is reached. -/
inductive Differs (st : State) : Part → State → Prop
  | bytes (random diagnostics symbols patches sections unions) :
      Differs st .bytes { st with random, diagnostics, symbols, patches, sections, unions }
  | places {st' : State} (h : st'.setting = st.setting) : Differs st .places st'
  | values (random diagnostics printed numbers strings vars charmap fieldOffset) :
      Differs st .values
        { st with random, diagnostics, printed, numbers, strings, vars, charmap, fieldOffset }
  | branches (random diagnostics conditionals) :
      Differs st .branches { st with random, diagnostics, conditionals }
  | macros (diagnostics macroDefs macros) :
      Differs st .macros { st with diagnostics, macroDefs, macros }
  | arguments (random diagnostics frames) :
      Differs st .arguments { st with random, diagnostics, frames }
  | repeats (random diagnostics repeats) :
      Differs st .repeats { st with random, diagnostics, repeats }
  | options (diagnostics options savedOptions) :
      Differs st .options { st with diagnostics, options, savedOptions }

namespace Differs

variable {st st' st'' : State} {part : Part}

theorem refl (st : State) (part : Part) : st.Differs part st := by
  cases part with
  | bytes => exact .bytes ..
  | places => exact .places rfl
  | values => exact .values ..
  | branches => exact .branches ..
  | macros => exact .macros ..
  | arguments => exact .arguments ..
  | repeats => exact .repeats ..
  | options => exact .options ..

theorem of_eq (h : st'' = st') (hd : st.Differs part st') : st.Differs part st'' := by
  rwa [h]

end Differs

variable (st : State)

theorem differs_assign (label : Option LabelDef) (word : Token) (e : Expr) :
    st.Differs .values (st.assign label word e) := by
  obtain ⟨_, _, _, h⟩ := st.assign_footprint label word e
  exact .of_eq h (.values ..)

theorem differs_field (keyword : Keyword) (label : Option LabelDef) (word : Token)
    (count : Option Expr) : st.Differs .values (st.field keyword label word count) := by
  obtain ⟨_, _, _, _, h⟩ := st.field_footprint keyword label word count
  exact .of_eq h (.values ..)

theorem differs_data (keyword : Keyword) (word : Token) (items : List Expr) :
    st.Differs .bytes (st.data keyword word items) := by
  obtain ⟨_, _, _, _, _, h⟩ := st.data_footprint keyword word items
  exact .of_eq h (.bytes ..)

theorem differs_printValue (keyword : Keyword) (e : Expr) :
    st.Differs .values (st.printValue keyword e) := by
  obtain ⟨_, _, _, h⟩ := st.printValue_footprint keyword e
  exact .of_eq h (.values ..)

end State

namespace Assembler

open State

variable (asm : Assembler)

/-- `INCBIN` evaluates its arguments, and puts bytes into the open section or leaves it at that. -/
theorem includeBytes_cases (word : Token) (e : Expr) (start length : Option Expr) :
    ∃ random diagnostics,
      (asm.includeBytes word e start length).state = { asm.state with random, diagnostics } ∨
        ∃ body bytes, asm.state.section? = some body ∧
          (asm.includeBytes word e start length).state =
            { asm.state with random, diagnostics }.emit bytes := by
  unfold includeBytes
  split
  · exact ⟨_, _, Or.inl rfl⟩
  · rename_i body hbody
    obtain ⟨_, _, hfirst⟩ := (asm.state.text e).2.numberD_footprint 0 start
    obtain ⟨_, _, hcount⟩ := ((asm.state.text e).2.numberD 0 start).2.numberD_footprint 0 length
    rw [hfirst] at hcount
    dsimp only
    rw [hfirst, hcount]
    split
    · exact ⟨_, _, Or.inl rfl⟩
    · generalize (if length.isSome = true then _ else _ : Nat) = past
      split
      · exact ⟨_, _, Or.inr ⟨body, _, hbody, rfl⟩⟩
      · exact ⟨_, _, Or.inl rfl⟩

theorem differs_includeBytes (word : Token) (e : Expr) (start length : Option Expr) :
    asm.state.Differs .bytes (asm.includeBytes word e start length).state := by
  obtain ⟨random, diagnostics, h | ⟨_, bytes, -, h⟩⟩ := asm.includeBytes_cases word e start length
  · exact .of_eq h (.bytes ..)
  · obtain ⟨sections, hemit⟩ := { asm.state with random, diagnostics }.emit_footprint bytes
    exact .of_eq (h.trans hemit) (.bytes ..)

/-- Without a level left, the end of a repeat carries nothing out. -/
theorem differs_endRepeat (word : Token) :
    asm.state.Differs .repeats (asm.endRepeat none word).state := by
  unfold endRepeat
  split
  · exact .repeats ..
  · exact .repeats ..
  · exact .repeats ..

/-- A keyword without a level left reaches one part of the state. -/
theorem differs_keywordBody (keyword : Keyword) (label : Option LabelDef) (word : Token)
    (args : List Expr) :
    asm.state.Differs keyword.part (asm.keywordBody none keyword label word args).state := by
  unfold keywordBody
  split
  · exact asm.state.differs_data _ _ _
  · exact asm.state.differs_data _ _ _
  · exact asm.state.differs_data _ _ _
  · obtain ⟨_, _, _, h⟩ := asm.state.reserve_footprint word _ _
    exact .of_eq h (.bytes ..)
  · obtain ⟨_, _, _, h⟩ := asm.state.equ_footprint label word _
    exact .of_eq h (.values ..)
  · obtain ⟨_, _, _, h⟩ := asm.state.equs_footprint label word _
    exact .of_eq h (.values ..)
  · exact asm.state.differs_assign _ _ _
  · exact asm.state.differs_field _ _ _ _
  · exact asm.state.differs_field _ _ _ _
  · exact asm.state.differs_field _ _ _ _
  · exact .values ..
  · exact .values ..
  · obtain ⟨_, _, _, h⟩ := asm.state.mapText_footprint _ _
    exact .of_eq h (.values ..)
  · obtain ⟨_, _, _, h⟩ := asm.state.beginIf_footprint word args
    exact .of_eq h (.branches ..)
  · obtain ⟨_, _, _, h⟩ := asm.state.nextIf_footprint word args
    exact .of_eq h (.branches ..)
  · obtain ⟨_, _, h⟩ := asm.state.lastIf_footprint word
    exact .of_eq h (.branches ..)
  · obtain ⟨_, _, h⟩ := asm.state.endIf_footprint word
    exact .of_eq h (.branches ..)
  · obtain ⟨_, _, h⟩ := asm.state.beginMacro_footprint label word args
    exact .of_eq h (.macros ..)
  · obtain ⟨_, _, _, h⟩ := asm.state.endMacro_footprint word
    exact .of_eq h (.macros ..)
  · obtain ⟨_, _, _, h⟩ := asm.state.shift_footprint word args.head?
    exact .of_eq h (.arguments ..)
  · obtain ⟨_, _, _, h⟩ := asm.state.beginRepeat_footprint word args
    exact .of_eq h (.repeats ..)
  · exact asm.differs_endRepeat word
  · obtain ⟨_, _, h⟩ := asm.state.beginUnion_footprint word
    exact .of_eq h (.bytes ..)
  · obtain ⟨_, _, _, _, h⟩ := asm.state.nextMember_footprint word
    exact .of_eq h (.bytes ..)
  · obtain ⟨_, _, _, h⟩ := asm.state.endUnion_footprint word
    exact .of_eq h (.bytes ..)
  · exact .values ..
  · exact asm.differs_includeBytes _ _ _ _
  · exact .places (setting_exportAll _ _)
  · exact .places (setting_exportAll _ _)
  · exact .places (setting_purge _ _)
  · exact .places (setting_beginSection _ _ _ _)
  · exact .places (setting_pushSection _)
  · exact .places (setting_popSection _ _)
  · obtain ⟨_, _, _, h⟩ := asm.state.popOptions_footprint word
    exact .of_eq h (.options ..)
  · exact .values ..
  · exact .values ..
  · exact asm.state.differs_printValue .printt _
  · exact asm.state.differs_printValue .printv _
  · exact asm.state.differs_printValue .printi _
  · exact asm.state.differs_printValue .printf _
  · exact .values ..
  · exact .refl _ _

theorem differs_optionBody (keyword : Keyword) (args : List Token) :
    asm.state.Differs .options (asm.optionBody keyword args).state := by
  unfold optionBody
  split
  · obtain ⟨_, _, _, h⟩ := asm.state.pushOptions_footprint args
    exact .of_eq h (.options ..)
  · obtain ⟨_, _, h⟩ := asm.state.changeOptions_footprint args
    exact .of_eq h (.options ..)

/-! ## Other operations -/

theorem directive_footprint (word : Token) : ∃ extensions diagnostics,
    (asm.directive word).state = { asm.state with extensions, diagnostics } := by
  unfold directive
  split
  · exact ⟨_, _, rfl⟩
  · exact ⟨_, _, rfl⟩
  · exact ⟨_, _, rfl⟩

/-- Without a level left, a macro call reports at most. -/
theorem callMacro_footprint (name : Token) (args : List Token) : ∃ diagnostics,
    (asm.callMacro none name args).state = { asm.state with diagnostics } := by
  unfold callMacro
  split
  · exact ⟨_, rfl⟩
  · exact ⟨_, rfl⟩

/-! ## Expansions -/

/-- What an expansion sets in a state as it begins, and puts back as it ends. -/
structure Expansion.Enters (x : Expansion) (st : State) : Prop where
  opened : ∃ random diagnostics extensions repeats frames uniqueIds expansions,
    x.opened.state =
      { st with random, diagnostics, extensions, repeats, frames, uniqueIds, expansions }
  closed : ∀ a, ∃ extensions frames uniqueIds,
    (x.close a).state = { a.state with extensions, frames, uniqueIds }

theorem enters_ofMacro? {name : Token} {args : List Token} {x : Expansion}
    (h : asm.ofMacro? name args = some x) : x.Enters asm.state := by
  obtain ⟨body, -, rfl⟩ := Option.map_eq_some_iff.1 h
  exact ⟨⟨_, _, _, _, _, _, _, rfl⟩, fun a => ⟨_, _, _, rfl⟩⟩

theorem enters_ofRepeat? {x : Expansion} (h : asm.ofRepeat? = some x) : x.Enters asm.state := by
  unfold ofRepeat? at h
  split at h
  · obtain rfl := Option.some.inj h
    exact ⟨⟨_, _, _, _, _, _, _, rfl⟩, fun a => ⟨_, _, _, rfl⟩⟩
  · exact absurd h (by simp)

theorem enters_ofInclude (e : Expr) : (asm.ofInclude e).Enters asm.state := by
  unfold ofInclude
  dsimp only
  split
  · exact ⟨⟨_, _, _, _, _, _, _, rfl⟩, fun a => ⟨_, _, _, rfl⟩⟩
  · exact ⟨⟨_, _, _, _, _, _, _, rfl⟩, fun a => ⟨_, _, _, rfl⟩⟩

/-- A line enters its expansion once the label in front of it has been defined, if it has to be. -/
theorem expansion?_enters {line : Line} {x : Expansion} (h : expansion? line asm = some x) :
    ∃ asm', (asm' = asm ∨ asm' = asm.mapState (·.defineLabel? line.label)) ∧
      x.Enters asm'.state := by
  obtain ⟨asm', hlabel, hx⟩ := expansion?_cases h
  refine ⟨asm', hlabel, ?_⟩
  rcases hx with ⟨name, args, hx⟩ | hx | ⟨e, rfl⟩
  · exact asm'.enters_ofMacro? hx
  · exact asm'.enters_ofRepeat? hx
  · exact asm'.enters_ofInclude e

end Assembler

end Sm83Asm
