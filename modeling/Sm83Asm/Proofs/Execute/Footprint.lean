import Sm83Asm.Execute.Blocks
import Sm83Asm.Execute.Data
import Sm83Asm.Execute.Names
import Sm83Asm.Execute.Settings
import Sm83Asm.Proofs.Instruction.Overflow
import Sm83Asm.Proofs.Layout.Declaration

set_option autoImplicit false

/-!
# What a keyword can change

For every keyword that has nothing to do with labels, the fields of the state that it can change:
the state afterwards is the state before with other values in those fields and nowhere else.
Whatever is read from the other fields is then as it was, by reflexivity.
-/

namespace Sm83Asm.State

variable (st : State)

/-! ## Expressions -/

theorem number_footprint (e : Expr) : ∃ random diagnostics,
    (st.number e).2 = { st with random, diagnostics } := ⟨_, _, rfl⟩

/-- A number that may be missing changes what computing it changes. -/
theorem numberD_footprint (default : Int32) (e : Option Expr) : ∃ random diagnostics,
    (st.numberD default e).2 = { st with random, diagnostics } := by
  cases e with
  | none => exact ⟨_, _, rfl⟩
  | some e => exact st.number_footprint e

/-- So does the only argument of a keyword, or an error that there is none. -/
theorem soleNumber_footprint (keyword : Keyword) (word : Token) (args : List Expr) :
    ∃ random diagnostics,
      (st.soleNumber keyword word args).2 = { st with random, diagnostics } := by
  unfold soleNumber
  split
  · exact ⟨_, _, rfl⟩
  · exact ⟨_, _, rfl⟩

/-! ## Bytes -/

/-- Changing bytes changes nothing but the sections. -/
theorem mapBytes_footprint (f : Array UInt8 → Array UInt8) : ∃ sections,
    st.mapBytes f = { st with sections } := by
  unfold mapBytes
  split
  · exact ⟨_, rfl⟩
  · exact ⟨_, rfl⟩

theorem emit_footprint (bytes : Array UInt8) : ∃ sections,
    st.emit bytes = { st with sections } := st.mapBytes_footprint _

/-- Placing bytes without arithmetic that could overflow. -/
theorem emitting_footprint {α : Type} {x : Act Emission α} (hx : ∀ b, x.Keeps b) :
    ∃ random diagnostics symbols patches,
      (st.emitting x).2 = { st with random, diagnostics, symbols, patches } := by
  have hexact : (x st.emission).state.overflowed = st.overflowed := hx _ st.emission rfl
  have hsame : (st.emitting x).2 = { (st.emitting x).2 with overflowed := st.overflowed } := by
    rw [← hexact]
    rfl
  exact ⟨_, _, _, _, hsame⟩

/-- Data never overflows, so it makes no note of that. -/
theorem data_footprint (keyword : Keyword) (word : Token) (items : List Expr) :
    ∃ random diagnostics symbols patches sections,
      st.data keyword word items =
        { st with random, diagnostics, symbols, patches, sections } := by
  unfold data
  split
  · exact ⟨_, _, _, _, _, rfl⟩
  · rename_i start _
    obtain ⟨random, diagnostics, symbols, patches, hplaced⟩ :=
      st.emitting_footprint fun b => st.scope.keeps_dataItems keyword items start
    dsimp only
    rw [hplaced]
    obtain ⟨sections, h⟩ :=
      emit_footprint { st with random, diagnostics, symbols, patches } _
    exact ⟨_, _, _, _, _, h⟩

/-- Reserved bytes are known at once, and queue no patch. -/
theorem reserve_footprint (word : Token) (count : Expr) (fill : Option Expr) :
    ∃ random diagnostics sections,
      st.reserve word count fill = { st with random, diagnostics, sections } := by
  unfold reserve
  split
  · exact ⟨_, _, _, rfl⟩
  · obtain ⟨random, diagnostics, hfill⟩ := (st.number count).2.numberD_footprint
      (Int32.ofNat (st.number count).2.options.pad.toNat) fill
    dsimp only
    rw [hfill]
    split
    · exact ⟨_, _, _, rfl⟩
    · split
      · exact ⟨_, _, _, rfl⟩
      · obtain ⟨sections, hemit⟩ := emit_footprint
          { (st.number count).2 with random, diagnostics } _
        exact ⟨_, _, _, hemit⟩

/-! ## Unions -/

theorem beginUnion_footprint (word : Token) : ∃ diagnostics unions,
    st.beginUnion word = { st with diagnostics, unions } := by
  unfold beginUnion
  split
  · exact ⟨_, _, rfl⟩
  · exact ⟨_, _, rfl⟩

/-- The next member of a union removes bytes, and the patches for them. -/
theorem nextMember_footprint (word : Token) : ∃ diagnostics patches sections unions,
    st.nextMember word = { st with diagnostics, patches, sections, unions } := by
  unfold nextMember
  split
  · exact ⟨_, _, _, _, rfl⟩
  · rename_i union outer _
    obtain ⟨sections, hcut⟩ := st.mapBytes_footprint (·.take union.offset)
    rw [hcut]
    exact ⟨_, _, _, _, rfl⟩

/-- The end of a union adds bytes, and no patch. -/
theorem endUnion_footprint (word : Token) : ∃ diagnostics sections unions,
    st.endUnion word = { st with diagnostics, sections, unions } := by
  unfold endUnion
  split
  · exact ⟨_, _, _, rfl⟩
  · rename_i union outer _
    obtain ⟨sections, hfill⟩ :=
      st.mapBytes_footprint (resize · (union.offset + union.length) st.options.pad)
    rw [hfill]
    exact ⟨_, _, _, rfl⟩

/-! ## Sections -/

theorem readAttribute_footprint (region : Region) (attrs : Attributes) (e : Expr) :
    ∃ random diagnostics,
      (st.readAttribute region attrs e).2 = { st with random, diagnostics } := by
  unfold readAttribute
  split
  · dsimp only
    split
    · split
      · exact ⟨_, _, rfl⟩
      · split
        · exact ⟨_, _, rfl⟩
        · exact ⟨_, _, rfl⟩
    · split
      · exact ⟨_, _, rfl⟩
      · exact ⟨_, _, rfl⟩
    · exact ⟨_, _, rfl⟩
  · exact ⟨_, _, rfl⟩

/-- The attributes of a section are computed before the section is opened. -/
theorem readAttributes_footprint (region : Region) (attrs : Attributes) (es : List Expr) :
    ∃ random diagnostics,
      (st.readAttributes region attrs es).2 = { st with random, diagnostics } := by
  induction es generalizing st attrs with
  | nil => exact ⟨_, _, rfl⟩
  | cons e es ih =>
    obtain ⟨random, diagnostics, hone⟩ := st.readAttribute_footprint region attrs e
    unfold readAttributes
    split
    · rename_i st' h
      rw [h] at hone
      exact ⟨_, _, hone⟩
    · rename_i attrs' st' h
      rw [h] at hone
      obtain ⟨random', diagnostics', hall⟩ := ih st' attrs'
      subst hone
      exact ⟨_, _, hall⟩

theorem fixedAddress_footprint (region : Region) (e : Option Expr) : ∃ random diagnostics,
    (st.fixedAddress region e).2 = { st with random, diagnostics } := by
  unfold fixedAddress
  split
  · exact ⟨_, _, rfl⟩
  · dsimp only
    split
    · exact ⟨_, _, rfl⟩
    · exact ⟨_, _, rfl⟩

/-- `SECTION` evaluates what it asks for, and opens a lawful section that is still empty or leaves
it at that. -/
theorem beginSection_cases (name kind : Expr) (attrs : List Expr) : ∃ random diagnostics,
    st.beginSection name kind attrs = { st with random, diagnostics } ∨
      ∃ declared : Section, declared.bytes = #[] ∧ declared.Lawful ∧
        st.beginSection name kind attrs =
          { st with random, diagnostics }.openSection declared name.token := by
  unfold beginSection
  dsimp only
  split
  · exact ⟨_, _, Or.inl rfl⟩
  · rename_i region _
    obtain ⟨random, diagnostics, haddress⟩ :=
      (st.text name).2.fixedAddress_footprint region (regionParts kind).2
    split
    · rename_i st' h
      rw [h] at haddress
      exact ⟨_, _, Or.inl haddress⟩
    · rename_i address st' h
      rw [h] at haddress
      obtain ⟨random', diagnostics', hattrs⟩ := st'.readAttributes_footprint region {} attrs
      subst haddress
      split
      · rename_i st'' h'
        rw [h'] at hattrs
        exact ⟨_, _, Or.inl hattrs⟩
      · rename_i attributes st'' h'
        rw [h'] at hattrs
        subst hattrs
        exact ⟨_, _, Or.inr ⟨_, rfl, lawful_of_read h h', rfl⟩⟩

/-! ## Names -/

/-- A keyword that names something reports a fault, or goes on with a name that is new. -/
theorem withNewName_cases (keyword : Keyword) (label : Option LabelDef) (word : Token)
    (k : String → State) :
    (∃ cause, st.withNewName keyword label word k = st.fault cause word) ∨
      ∃ name, st.isDefined name = false ∧ st.withNewName keyword label word k = k name := by
  unfold withNewName
  cases label with
  | none => exact Or.inl ⟨_, rfl⟩
  | some label =>
    cases hd : st.isDefined label.name.text with
    | true => exact Or.inl ⟨.alreadyDefined label.name.text, by simp [hd]⟩
    | false => exact Or.inr ⟨label.name.text, hd, by simp [hd]⟩

/-- `EQU` adds to the names for numbers. -/
theorem equ_footprint (label : Option LabelDef) (word : Token) (e : Expr) :
    ∃ random diagnostics numbers,
      st.equ label word e = { st with random, diagnostics, numbers } := by
  unfold equ
  rcases st.withNewName_cases .equ label word _ with ⟨cause, h⟩ | ⟨name, -, h⟩
  · exact ⟨_, _, _, h⟩
  · exact ⟨_, _, _, h⟩

/-- `EQUS` adds to the names for texts. -/
theorem equs_footprint (label : Option LabelDef) (word : Token) (e : Expr) :
    ∃ random diagnostics strings,
      st.equs label word e = { st with random, diagnostics, strings } := by
  unfold equs
  rcases st.withNewName_cases .equs label word _ with ⟨cause, h⟩ | ⟨name, -, h⟩
  · exact ⟨_, _, _, h⟩
  · exact ⟨_, _, _, h⟩

/-- `SET` adds to the variables, or changes one. -/
theorem assign_footprint (label : Option LabelDef) (word : Token) (e : Expr) :
    ∃ random diagnostics vars,
      st.assign label word e = { st with random, diagnostics, vars } := by
  unfold assign
  split
  · exact ⟨_, _, _, rfl⟩
  · dsimp only
    split
    · exact ⟨_, _, _, rfl⟩
    · exact ⟨_, _, _, rfl⟩

/-- A field counts on, and may be named. -/
theorem field_footprint (keyword : Keyword) (label : Option LabelDef) (word : Token)
    (count : Option Expr) : ∃ random diagnostics numbers fieldOffset,
      st.field keyword label word count =
        { st with random, diagnostics, numbers, fieldOffset } := by
  obtain ⟨random, diagnostics, hn⟩ := st.numberD_footprint 1 count
  unfold field
  rcases st.withNewName_cases keyword label word _ with ⟨cause, h⟩ | ⟨name, -, h⟩
  · exact ⟨_, _, _, _, h⟩
  · rw [h]
    dsimp only
    rw [hn]
    exact ⟨_, _, _, _, rfl⟩

theorem mapText_footprint (key value : Expr) : ∃ random diagnostics charmap,
    st.mapText key value = { st with random, diagnostics, charmap } := by
  unfold mapText
  dsimp only
  split
  · exact ⟨_, _, _, rfl⟩
  · split
    · exact ⟨_, _, _, rfl⟩
    · exact ⟨_, _, _, rfl⟩

/-! ## Blocks -/

/-- Conditions are computed before their block is opened. -/
theorem beginIf_footprint (word : Token) (args : List Expr) :
    ∃ random diagnostics conditionals,
      st.beginIf word args = { st with random, diagnostics, conditionals } := by
  unfold beginIf
  split
  · obtain ⟨random, diagnostics, hn⟩ := st.soleNumber_footprint .ifTrue word args
    dsimp only
    rw [hn]
    exact ⟨_, _, _, rfl⟩
  · exact ⟨_, _, _, rfl⟩

theorem nextIf_footprint (word : Token) (args : List Expr) :
    ∃ random diagnostics conditionals,
      st.nextIf word args = { st with random, diagnostics, conditionals } := by
  unfold nextIf
  split
  · exact ⟨_, _, _, rfl⟩
  · split
    · exact ⟨_, _, _, rfl⟩
    · obtain ⟨random, diagnostics, hn⟩ := st.soleNumber_footprint .elseIf word args
      dsimp only
      rw [hn]
      exact ⟨_, _, _, rfl⟩

theorem lastIf_footprint (word : Token) : ∃ diagnostics conditionals,
    st.lastIf word = { st with diagnostics, conditionals } := by
  unfold lastIf
  split
  · exact ⟨_, _, rfl⟩
  · exact ⟨_, _, rfl⟩

theorem endIf_footprint (word : Token) : ∃ diagnostics conditionals,
    st.endIf word = { st with diagnostics, conditionals } := by
  unfold endIf
  split
  · exact ⟨_, _, rfl⟩
  · exact ⟨_, _, rfl⟩

/-- A macro is not known before its definition ends. -/
theorem beginMacro_footprint (label : Option LabelDef) (word : Token) (args : List Expr) :
    ∃ diagnostics macroDefs,
      st.beginMacro label word args = { st with diagnostics, macroDefs } := by
  unfold beginMacro
  split
  · exact ⟨_, _, rfl⟩
  · exact ⟨_, _, rfl⟩

/-- The end of a definition adds the macro. -/
theorem endMacro_footprint (word : Token) : ∃ diagnostics macroDefs macros,
    st.endMacro word = { st with diagnostics, macroDefs, macros } := by
  unfold endMacro
  split
  · exact ⟨_, _, _, rfl⟩
  · exact ⟨_, _, _, rfl⟩
  · dsimp only
    split
    · exact ⟨_, _, _, rfl⟩
    · exact ⟨_, _, _, rfl⟩

theorem shift_footprint (word : Token) (count : Option Expr) : ∃ random diagnostics frames,
    st.shift word count = { st with random, diagnostics, frames } := by
  obtain ⟨random, diagnostics, hn⟩ := st.numberD_footprint 1 count
  unfold shift
  dsimp only
  rw [hn]
  split
  · exact ⟨_, _, _, rfl⟩
  · split
    · exact ⟨_, _, _, rfl⟩
    · exact ⟨_, _, _, rfl⟩

/-- A repeat has its count from the start. -/
theorem beginRepeat_footprint (word : Token) (args : List Expr) : ∃ random diagnostics repeats,
    st.beginRepeat word args = { st with random, diagnostics, repeats } := by
  unfold beginRepeat
  split
  · obtain ⟨random, diagnostics, hn⟩ := st.soleNumber_footprint .rept word args
    dsimp only
    rw [hn]
    split
    · exact ⟨_, _, _, rfl⟩
    · exact ⟨_, _, _, rfl⟩
  · exact ⟨_, _, _, rfl⟩

/-! ## Options and messages -/

theorem changeOption_footprint (arg : Token) : ∃ diagnostics options,
    st.changeOption arg = { st with diagnostics, options } := by
  unfold changeOption
  split
  · exact ⟨_, _, rfl⟩
  · exact ⟨_, _, rfl⟩

/-- Options change without a computation. -/
theorem changeOptions_footprint (args : List Token) : ∃ diagnostics options,
    st.changeOptions args = { st with diagnostics, options } := by
  unfold changeOptions
  induction args generalizing st with
  | nil => exact ⟨_, _, rfl⟩
  | cons arg args ih =>
    obtain ⟨diagnostics, options, hone⟩ := st.changeOption_footprint arg
    obtain ⟨diagnostics', options', hall⟩ := ih (st.changeOption arg)
    rw [List.foldl_cons, hall, hone]
    exact ⟨_, _, rfl⟩

/-- Options that are set aside can be changed at once. -/
theorem pushOptions_footprint (args : List Token) : ∃ diagnostics options savedOptions,
    st.pushOptions args = { st with diagnostics, options, savedOptions } := by
  unfold pushOptions
  obtain ⟨diagnostics, options, h⟩ :=
    changeOptions_footprint { st with savedOptions := st.options :: st.savedOptions } args
  exact ⟨_, _, _, h⟩

theorem popOptions_footprint (word : Token) : ∃ diagnostics options savedOptions,
    st.popOptions word = { st with diagnostics, options, savedOptions } := by
  unfold popOptions
  split
  · exact ⟨_, _, _, rfl⟩
  · exact ⟨_, _, _, rfl⟩

/-- What is printed is added to the rest. -/
theorem printValue_footprint (keyword : Keyword) (e : Expr) : ∃ random diagnostics printed,
    st.printValue keyword e = { st with random, diagnostics, printed } := by
  unfold printValue
  split
  · exact ⟨_, _, _, rfl⟩
  · exact ⟨_, _, _, rfl⟩
  · exact ⟨_, _, _, rfl⟩
  · exact ⟨_, _, _, rfl⟩

end Sm83Asm.State
