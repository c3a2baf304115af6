import Sm83Asm.Proofs.Eval.Gate
import Sm83Asm.Proofs.Run.History

set_option autoImplicit false

/-!
# Parsed lines behind the gate of the extensions

A parsed line does the same with every setting of the extensions, and the setting behind it is the
only thing that may be different, as long as the line calls no function of the extensions and does
not look up the counter of the expansions. The names that a line looks up are listed in the order
in which it is carried out (`Line.lookups`).

Main statements: `alike_execute` for parsed lines and `rel_expansion?` for what they expand to.
-/

namespace Sm83Asm

namespace State

variable (st : State)

/-! ## Names that keywords look up -/

/-- For an optional number. -/
def numberDLookups : Option Expr → List String
  | some e => st.scope.evaluateLookups e
  | none => []

/-- For the number of the only argument. -/
def soleNumberLookups : List Expr → List String
  | [e] => st.scope.evaluateLookups e
  | _ => []

/-- For `DB`, `DW` and `DL`. -/
def dataLookups (keyword : Keyword) (items : List Expr) : List String :=
  match st.offset? with
  | none => []
  | some start =>
    st.scope.dataLookups keyword st.emission start items

/-- For `DS`. -/
def reserveLookups (count : Expr) (fill : Option Expr) : List String :=
  if st.offset?.isSome then
    st.scope.evaluateLookups count ++ (st.number count).2.numberDLookups fill
  else []

/-- For the value of a new name; there is none when the name cannot be defined. -/
def newNameLookups (label : Option LabelDef) (value : List String) : List String :=
  match label with
  | none => []
  | some label => if st.isDefined label.name.text then [] else value

/-- For `SET` and `=`. -/
def assignLookups (label : Option LabelDef) (e : Expr) : List String :=
  match label with
  | none => []
  | some label =>
    let name := label.name.text
    if st.numbers.contains name || st.strings.contains name || st.macros.contains name then []
    else st.scope.evaluateLookups e

/-- For `CHARMAP`. -/
def mapTextLookups (key value : Expr) : List String :=
  st.scope.evaluateLookups key ++ (st.text key).2.scope.evaluateLookups value

/-- For `IF`. -/
def beginIfLookups (args : List Expr) : List String :=
  if st.conditionsTrue then st.soleNumberLookups args else []

/-- For `ELIF`. -/
def nextIfLookups (args : List Expr) : List String :=
  match st.conditionals with
  | [] => []
  | top :: _ =>
    if top.taken || !st.outerConditionsTrue then [] else st.soleNumberLookups args

/-- For `REPT`. -/
def beginRepeatLookups (args : List Expr) : List String :=
  if st.repeats.isEmpty then st.soleNumberLookups args else []

/-- For `INCBIN`. -/
def includeBytesLookups (e : Expr) (start length : Option Expr) : List String :=
  if st.section?.isSome then
    let named := (st.text e).2
    st.scope.evaluateLookups e ++ named.numberDLookups start ++
      (named.numberD 0 start).2.numberDLookups length
  else []

/-- For one attribute of a section. -/
def attributeLookups : Expr → List String
  | .index _ _ value => st.scope.evaluateLookups value
  | _ => []

/-- For attributes of a section, up to the first fault. -/
def attributesLookups (st : State) (region : Region) (attrs : Attributes) :
    List Expr → List String
  | [] => []
  | e :: es =>
    st.attributeLookups e ++
      match st.readAttribute region attrs e with
      | (none, _) => []
      | (some attrs, st) => st.attributesLookups region attrs es

/-- For `SECTION`. -/
def beginSectionLookups (name kind : Expr) (attrs : List Expr) : List String :=
  let named := (st.text name).2
  let (place, address) := regionParts kind
  st.scope.evaluateLookups name ++
    match regionOf? place with
    | none => []
    | some region =>
      named.numberDLookups address ++
        match named.fixedAddress region address with
        | (none, _) => []
        | (some _, st) => st.attributesLookups region {} attrs

/-- The names that a keyword with the right number of arguments looks up. -/
def keywordLookups (keyword : Keyword) (label : Option LabelDef) (args : List Expr) :
    List String :=
  match keyword, args with
  | .db, _ | .dw, _ | .dl, _ => st.dataLookups keyword args
  | .ds, count :: fill => st.reserveLookups count fill.head?
  | .equ, [e] | .equs, [e] => st.newNameLookups label (st.scope.evaluateLookups e)
  | .set, [e] => st.assignLookups label e
  | .rb, _ | .rw, _ | .rl, _ => st.newNameLookups label (st.numberDLookups args.head?)
  | .charmap, [key, value] => st.mapTextLookups key value
  | .ifTrue, _ => st.beginIfLookups args
  | .elseIf, _ => st.nextIfLookups args
  | .shift, _ => st.numberDLookups args.head?
  | .rept, _ => st.beginRepeatLookups args
  | .incbin, e :: range => st.includeBytesLookups e range[0]? range[1]?
  | .sectionStart, name :: kind :: attrs => st.beginSectionLookups name kind attrs
  | .rsset, [e] | .includeFile, [e] | .warn, [e] | .fail, [e] | .printt, [e] | .printv, [e]
  | .printi, [e] | .printf, [e] | .reseed, [e] => st.scope.evaluateLookups e
  | _, _ => []

/-- The names that an instruction looks up. -/
def instructionLookups (label : Option LabelDef) (word : Token) (args : List Expr) :
    List String :=
  if st.section?.isSome then
    let st := st.defineLabel? label
    st.scope.encodeLookups st.emission word args
  else []

end State

/-- The names that carrying out a parsed line looks up. -/
def Line.lookups (line : Line) (asm : Assembler) : List String :=
  match line.operation with
  | some (.assign _ e) => asm.state.assignLookups line.label e
  | some (.keyword word args) =>
    match Keyword.ofWord? word.text with
    | none => []
    | some keyword =>
      let asm := if keyword.namesLabel then asm else asm.mapState (·.defineLabel? line.label)
      if keyword.checksOwnArity || keyword.arity.accepts args.length then
        asm.state.keywordLookups keyword line.label args
      else []
  | some (.opcode word args) => asm.state.instructionLookups line.label word args
  | _ => []

/-- Whether the operands of a parsed line call no function of the extensions. -/
def Line.IsPlain (line : Line) : Prop := ∀ op ∈ line.operation, Expr.AllPlain op.operands

namespace State

variable {st : State} (c x : Bool)

/-! ## Evaluating -/

section Evaluating

variable {e : Expr} (hp : e.IsPlain) (hn : counterName ∉ st.scope.evaluateLookups e)

include hp hn

/-- A number that does not ask for the counter is the same for every setting. -/
theorem number_gated :
    (st.gated c x).number e = ((st.number e).1, (st.number e).2.gated c x) := by
  rw [number, scope_gated, Scope.number_gated c x hp hn]
  rfl

/-- A text that does not ask for the counter is the same for every setting. -/
theorem text_gated : (st.gated c x).text e = ((st.text e).1, (st.text e).2.gated c x) := by
  rw [text, scope_gated, Scope.text_gated c x hp hn]
  rfl

end Evaluating

/-- An optional number that does not ask for the counter is the same for every setting. -/
theorem numberD_gated {e : Option Expr} (hp : ∀ e' ∈ e, e'.IsPlain)
    (hn : counterName ∉ st.numberDLookups e) (default : Int32) :
    (st.gated c x).numberD default e =
      ((st.numberD default e).1, (st.numberD default e).2.gated c x) := by
  cases e with
  | none => rfl
  | some e => exact number_gated c x (hp e rfl) hn

/-- The only argument of a keyword is the same for every setting. -/
theorem soleNumber_gated {args : List Expr} (hp : ∀ e ∈ args, e.IsPlain)
    (hn : counterName ∉ st.soleNumberLookups args) (keyword : Keyword) (word : Token) :
    (st.gated c x).soleNumber keyword word args =
      ((st.soleNumber keyword word args).1, (st.soleNumber keyword word args).2.gated c x) := by
  unfold soleNumber
  split
  · exact number_gated c x (hp _ (List.mem_singleton_self _)) hn
  · rfl

/-! ## What reads no setting -/

@[simp] theorem section?_gated : (st.gated c x).section? = st.section? := rfl

@[simp] theorem offset?_gated : (st.gated c x).offset? = st.offset? := rfl

@[simp] theorem qualify_gated : (st.gated c x).qualify = st.qualify := rfl

@[simp] theorem isDefined_gated : (st.gated c x).isDefined = st.isDefined := rfl

@[simp] theorem countMember?_gated : (st.gated c x).countMember? = st.countMember? := rfl

/-- Errors are noted in the same way for every setting. -/
@[simp] theorem fault_gated (cause : EvaluationCause) (token : Token) :
    (st.gated c x).fault cause token = (st.fault cause token).gated c x := rfl

/-- The end of a label does not depend on the extensions. -/
@[simp] theorem closeLabel_gated : (st.gated c x).closeLabel = st.closeLabel.gated c x := by
  unfold closeLabel
  rw [gated_openLabel]
  split
  · rfl
  · rfl

/-- Labels are defined in the same way for every setting. -/
@[simp] theorem defineLabel_gated (label : LabelDef) :
    (st.gated c x).defineLabel label = (st.defineLabel label).gated c x := by
  unfold defineLabel
  simp only [gated_current, section?_gated, qualify_gated, gated_labels, isDefined_gated,
    closeLabel_gated]
  split
  · split
    · rfl
    · split
      · rfl
      · rfl
  · rfl

@[simp] theorem defineLabel?_gated (label : Option LabelDef) :
    (st.gated c x).defineLabel? label = (st.defineLabel? label).gated c x := by
  cases label with
  | none => rfl
  | some label => exact defineLabel_gated c x label

@[simp] theorem exportOne_gated (e : Expr) :
    (st.gated c x).exportOne e = (st.exportOne e).gated c x := by
  unfold exportOne
  simp only [qualify_gated, gated_labels, isDefined_gated, gated_pendingExports]
  split
  · split
    · rfl
    · split
      · rfl
      · split
        · rfl
        · rfl
  · rfl

@[simp] theorem purgeOne_gated (e : Expr) :
    (st.gated c x).purgeOne e = (st.purgeOne e).gated c x := by
  have hfound : (st.gated c x).isPlainName = st.isPlainName := rfl
  have hqualify : ∀ numbers strings vars macros (name : String),
      ({ st.gated c x with numbers, strings, vars, macros } : State).qualify name =
        ({ st with numbers, strings, vars, macros } : State).qualify name := fun _ _ _ _ _ => rfl
  unfold purgeOne
  dsimp only
  rw [hqualify, hfound]
  simp only [gated_labels, gated_symbols, gated_numbers, gated_strings, gated_vars, gated_macros]
  split
  · split
    · rfl
    · rfl
  · split
    · rfl
    · rfl

@[simp] theorem changeOption_gated (arg : Token) :
    (st.gated c x).changeOption arg = (st.changeOption arg).gated c x := by
  unfold changeOption
  rw [gated_options]
  split
  · rfl
  · rfl

/-- What reads no setting at one item reads none at a list of them. -/
theorem foldl_gated {α : Type} {step : State → α → State}
    (hstep : ∀ (st : State) (a : α), step (st.gated c x) a = (step st a).gated c x)
    (items : List α) (st : State) :
    items.foldl step (st.gated c x) = (items.foldl step st).gated c x := by
  induction items generalizing st with
  | nil => rfl
  | cons a items ih => rw [List.foldl_cons, hstep, ih, List.foldl_cons]

/-- Exporting does not depend on the extensions. -/
@[simp] theorem exportAll_gated (names : List Expr) :
    (st.gated c x).exportAll names = (st.exportAll names).gated c x :=
  foldl_gated c x (fun _ => exportOne_gated c x) names st

/-- Removing names does not depend on the extensions. -/
@[simp] theorem purge_gated (names : List Expr) :
    (st.gated c x).purge names = (st.purge names).gated c x :=
  foldl_gated c x (fun _ => purgeOne_gated c x) names st

/-- Options change in the same way for every setting. -/
@[simp] theorem changeOptions_gated (args : List Token) :
    (st.gated c x).changeOptions args = (st.changeOptions args).gated c x :=
  foldl_gated c x (fun _ => changeOption_gated c x) args st

/-- Options are set aside without the setting of the extensions. -/
@[simp] theorem pushOptions_gated (args : List Token) :
    (st.gated c x).pushOptions args = (st.pushOptions args).gated c x :=
  @changeOptions_gated { st with savedOptions := st.options :: st.savedOptions } c x args

/-- Options come back without the setting of the extensions. -/
@[simp] theorem popOptions_gated (word : Token) :
    (st.gated c x).popOptions word = (st.popOptions word).gated c x := by
  unfold popOptions
  rw [gated_savedOptions]
  split
  · rfl
  · rfl

/-- The bytes of the open section are changed in the same way for every setting. -/
@[simp] theorem mapBytes_gated (f : Array UInt8 → Array UInt8) :
    (st.gated c x).mapBytes f = (st.mapBytes f).gated c x := by
  unfold mapBytes
  rw [gated_current]
  split
  · rfl
  · rfl

@[simp] theorem emit_gated (bytes : Array UInt8) :
    (st.gated c x).emit bytes = (st.emit bytes).gated c x :=
  mapBytes_gated c x _

@[simp] theorem beginUnion_gated (word : Token) :
    (st.gated c x).beginUnion word = (st.beginUnion word).gated c x := by
  unfold beginUnion
  rw [offset?_gated]
  split
  · rfl
  · rfl

@[simp] theorem nextMember_gated (word : Token) :
    (st.gated c x).nextMember word = (st.nextMember word).gated c x := by
  unfold nextMember
  simp only [countMember?_gated, mapBytes_gated]
  split
  · rfl
  · rfl

@[simp] theorem endUnion_gated (word : Token) :
    (st.gated c x).endUnion word = (st.endUnion word).gated c x := by
  unfold endUnion
  simp only [countMember?_gated, mapBytes_gated, gated_options]
  split
  · rfl
  · rfl

/-- A section is opened, or refused, in the same way for every setting. -/
@[simp] theorem openSection_gated (declared : Section) (token : Token) :
    (st.gated c x).openSection declared token = (st.openSection declared token).gated c x := by
  have hclose : ∀ sections, ({ st.gated c x with sections } : State).closeLabel =
      ({ st with sections } : State).closeLabel.gated c x := fun sections =>
    @closeLabel_gated { st with sections } c x
  unfold openSection
  simp only [gated_sections, hclose]
  split
  · split
    · rfl
    · rfl
  · rfl

/-- Setting a section aside does not depend on the extensions. -/
@[simp] theorem pushSection_gated : (st.gated c x).pushSection = st.pushSection.gated c x := by
  unfold pushSection
  rw [closeLabel_gated]
  rfl

/-- Taking a section back does not depend on the extensions. -/
@[simp] theorem popSection_gated (word : Token) :
    (st.gated c x).popSection word = (st.popSection word).gated c x := by
  unfold popSection
  simp only [closeLabel_gated, gated_savedScopes]
  split
  · rfl
  · rfl

@[simp] theorem lastIf_gated (word : Token) :
    (st.gated c x).lastIf word = (st.lastIf word).gated c x := by
  unfold lastIf
  rw [gated_conditionals]
  split
  · rfl
  · rfl

@[simp] theorem endIf_gated (word : Token) :
    (st.gated c x).endIf word = (st.endIf word).gated c x := by
  unfold endIf
  rw [gated_conditionals]
  split
  · rfl
  · rfl

/-- Recording a macro begins in the same way for every setting. -/
@[simp] theorem beginMacro_gated (label : Option LabelDef) (word : Token) (args : List Expr) :
    (st.gated c x).beginMacro label word args = (st.beginMacro label word args).gated c x := by
  have hname : (st.gated c x).macroName? = st.macroName? := rfl
  unfold beginMacro
  rw [hname]
  split
  · rfl
  · rfl

/-- A macro is recorded in the same way for every setting. -/
@[simp] theorem endMacro_gated (word : Token) :
    (st.gated c x).endMacro word = (st.endMacro word).gated c x := by
  have hdefined : ({ st.gated c x with macroDefs := [] } : State).isDefined =
      ({ st with macroDefs := [] } : State).isDefined := rfl
  unfold endMacro
  simp only [gated_macroDefs, hdefined]
  split
  · rfl
  · rfl
  · split
    · rfl
    · rfl

/-! ## Keywords that evaluate -/

/-- The placing of bytes that reads no setting where it starts. -/
theorem emitting_gated {α : Type} {act act' : Act Emission α}
    (h : act' st.emission = act st.emission) :
    (st.gated c x).emitting act' = ((st.emitting act).1, (st.emitting act).2.gated c x) := by
  have hstart : act' (st.gated c x).emission = act st.emission := h
  simp only [emitting, hstart]
  rfl

/-- Data without a call of the extensions is the same for every setting, if it does not ask for the
counter. -/
theorem data_gated {items : List Expr} (hp : Expr.AllPlain items) {keyword : Keyword}
    (word : Token) (hn : counterName ∉ st.dataLookups keyword items) :
    (st.gated c x).data keyword word items = (st.data keyword word items).gated c x := by
  unfold dataLookups at hn
  unfold data
  rw [offset?_gated]
  cases hs : st.offset? with
  | none => rfl
  | some start =>
    rw [hs] at hn
    have hitems := Scope.dataItems_gated c x hp keyword hn
    simp only [scope_gated, emitting_gated c x hitems, emit_gated]

/-- The number of reserved bytes and what fills them are the same for every setting. -/
theorem reserve_gated {count : Expr} {fill : Option Expr} (hc : count.IsPlain)
    (hf : ∀ e ∈ fill, e.IsPlain) (hn : counterName ∉ st.reserveLookups count fill)
    (word : Token) :
    (st.gated c x).reserve word count fill = (st.reserve word count fill).gated c x := by
  unfold reserveLookups at hn
  unfold reserve
  rw [offset?_gated]
  cases hs : st.offset? with
  | none => rfl
  | some start =>
    rw [hs, Option.isSome_some, if_pos rfl, List.mem_append, not_or] at hn
    simp only [number_gated c x hc hn.1, gated_options, numberD_gated c x hf hn.2, emit_gated]
    split
    · rfl
    · split
      · rfl
      · rfl

/-- A new name, with whatever is done once it is known to be new. -/
theorem withNewName_gated {k k' : String → State} {label : Option LabelDef}
    {value : List String} (hn : counterName ∉ st.newNameLookups label value)
    (hk : counterName ∉ value → ∀ name, k' name = (k name).gated c x) (keyword : Keyword)
    (word : Token) :
    (st.gated c x).withNewName keyword label word k' =
      (st.withNewName keyword label word k).gated c x := by
  cases label with
  | none => rfl
  | some label =>
    unfold newNameLookups at hn
    unfold withNewName
    dsimp only at hn ⊢
    rw [isDefined_gated]
    split
    · rfl
    · rename_i hnew
      rw [if_neg hnew] at hn
      exact hk hn _

section Expressions

variable {e : Expr} (hp : e.IsPlain)

include hp

/-- A name gets the same number for every setting. -/
theorem equ_gated {label : Option LabelDef} (word : Token)
    (hn : counterName ∉ st.newNameLookups label (st.scope.evaluateLookups e)) :
    (st.gated c x).equ label word e = (st.equ label word e).gated c x := by
  apply withNewName_gated c x hn
  intro hvalue name
  simp only [number_gated c x hp hvalue]
  rfl

/-- A name for a text gets the same text for every setting. -/
theorem equs_gated {label : Option LabelDef} (word : Token)
    (hn : counterName ∉ st.newNameLookups label (st.scope.evaluateLookups e)) :
    (st.gated c x).equs label word e = (st.equs label word e).gated c x := by
  apply withNewName_gated c x hn
  intro hvalue name
  simp only [text_gated c x hp hvalue]
  rfl

/-- A variable gets the same number for every setting. -/
theorem assign_gated {label : Option LabelDef} (word : Token)
    (hn : counterName ∉ st.assignLookups label e) :
    (st.gated c x).assign label word e = (st.assign label word e).gated c x := by
  cases label with
  | none => rfl
  | some label =>
    simp only [assignLookups] at hn
    simp only [assign, gated_numbers, gated_strings, gated_macros]
    split
    · rfl
    · rename_i hfree
      rw [if_neg hfree] at hn
      simp only [number_gated c x hp hn]
      rfl

end Expressions

/-- A field gets the same offset for every setting. -/
theorem field_gated {count : Option Expr} (hp : ∀ e ∈ count, e.IsPlain)
    {label : Option LabelDef}
    (hn : counterName ∉ st.newNameLookups label (st.numberDLookups count)) (keyword : Keyword)
    (word : Token) :
    (st.gated c x).field keyword label word count =
      (st.field keyword label word count).gated c x := by
  apply withNewName_gated c x hn
  intro hcount name
  simp only [numberD_gated c x hp hcount]
  rfl

/-- The character map grows in the same way for every setting. -/
theorem mapText_gated {key value : Expr} (hk : key.IsPlain) (hv : value.IsPlain)
    (hn : counterName ∉ st.mapTextLookups key value) :
    (st.gated c x).mapText key value = (st.mapText key value).gated c x := by
  rw [mapTextLookups, List.mem_append, not_or] at hn
  simp only [mapText, text_gated c x hk hn.1, number_gated c x hv hn.2]
  split
  · rfl
  · split
    · rfl
    · rfl

/-- As many arguments are shifted away for every setting. -/
theorem shift_gated {count : Option Expr} (hp : ∀ e ∈ count, e.IsPlain)
    (hn : counterName ∉ st.numberDLookups count) (word : Token) :
    (st.gated c x).shift word count = (st.shift word count).gated c x := by
  simp only [shift, numberD_gated c x hp hn, gated_frames]
  split
  · rfl
  · split
    · rfl
    · rfl

section Blocks

variable {args : List Expr} (hp : ∀ e ∈ args, e.IsPlain)

include hp

/-- A condition that does not ask for the counter holds for every setting or for none. -/
theorem beginIf_gated (word : Token) (hn : counterName ∉ st.beginIfLookups args) :
    (st.gated c x).beginIf word args = (st.beginIf word args).gated c x := by
  have hlive : (st.gated c x).conditionsTrue = st.conditionsTrue := rfl
  unfold beginIfLookups at hn
  unfold beginIf
  rw [hlive]
  split
  · rename_i hlive
    rw [if_pos hlive] at hn
    simp only [soleNumber_gated c x hp hn]
    rfl
  · rfl

/-- The condition of `ELIF` is computed only in a block that was not live so far. -/
theorem nextIf_gated (word : Token) (hn : counterName ∉ st.nextIfLookups args) :
    (st.gated c x).nextIf word args = (st.nextIf word args).gated c x := by
  have houter : (st.gated c x).outerConditionsTrue = st.outerConditionsTrue := rfl
  unfold nextIfLookups at hn
  unfold nextIf
  rw [houter, gated_conditionals]
  cases hs : st.conditionals with
  | nil => rfl
  | cons top outer =>
    rw [hs] at hn
    dsimp only at hn ⊢
    split
    · rfl
    · rename_i hopen
      rw [if_neg hopen] at hn
      simp only [soleNumber_gated c x hp hn]
      rfl

/-- A repeat has the same count for every setting. -/
theorem beginRepeat_gated (word : Token) (hn : counterName ∉ st.beginRepeatLookups args) :
    (st.gated c x).beginRepeat word args = (st.beginRepeat word args).gated c x := by
  unfold beginRepeatLookups at hn
  unfold beginRepeat
  rw [gated_repeats]
  split
  · rename_i houtermost
    rw [if_pos houtermost] at hn
    simp only [soleNumber_gated c x hp hn]
    split
    · rfl
    · rfl
  · rfl

end Blocks

section Messages

variable {e : Expr} (hp : e.IsPlain) (hn : counterName ∉ st.scope.evaluateLookups e)

include hp hn

/-- What is printed is the same for every setting. -/
theorem printValue_gated (keyword : Keyword) :
    (st.gated c x).printValue keyword e = (st.printValue keyword e).gated c x := by
  unfold printValue
  simp only [text_gated c x hp hn, number_gated c x hp hn]
  split
  · rfl
  · rfl
  · rfl
  · rfl

/-- What the source reports on its own is the same for every setting. -/
theorem userMessage_gated (keyword : Keyword) (word : Token) :
    (st.gated c x).userMessage keyword word e =
      (st.userMessage keyword word e).gated c x := by
  simp only [userMessage, text_gated c x hp hn, fault_gated]

theorem reseed_gated : (st.gated c x).reseed e = (st.reseed e).gated c x := by
  simp only [reseed, number_gated c x hp hn]
  rfl

end Messages

/-! ## Sections -/

theorem readAttribute_gated {e : Expr} (hp : e.IsPlain)
    (hn : counterName ∉ st.attributeLookups e) (region : Region) (attrs : Attributes) :
    (st.gated c x).readAttribute region attrs e =
      ((st.readAttribute region attrs e).1,
        (st.readAttribute region attrs e).2.gated c x) := by
  cases e with
  | index t base value =>
    unfold readAttribute
    simp only [number_gated c x (Expr.isPlain_index.1 hp).2 hn]
    split
    · split
      · rfl
      · split
        · rfl
        · rfl
    · split
      · rfl
      · rfl
    · rfl
  | _ => rfl

/-- The attributes of a section are the same for every setting. -/
theorem readAttributes_gated {es : List Expr} (hp : ∀ e ∈ es, e.IsPlain) {region : Region}
    {attrs : Attributes} (hn : counterName ∉ st.attributesLookups region attrs es) :
    (st.gated c x).readAttributes region attrs es =
      ((st.readAttributes region attrs es).1,
        (st.readAttributes region attrs es).2.gated c x) := by
  induction es generalizing st attrs with
  | nil => rfl
  | cons e es ih =>
    obtain ⟨he, hes⟩ := List.forall_mem_cons.1 hp
    rw [attributesLookups, List.mem_append, not_or] at hn
    unfold readAttributes
    rw [readAttribute_gated c x he hn.1]
    rcases hr : st.readAttribute region attrs e with ⟨_ | attrs', st'⟩
    · rfl
    · rw [hr] at hn
      exact ih hes hn.2

theorem fixedAddress_gated {e : Option Expr} (hp : ∀ e' ∈ e, e'.IsPlain)
    (hn : counterName ∉ st.numberDLookups e) (region : Region) :
    (st.gated c x).fixedAddress region e =
      ((st.fixedAddress region e).1, (st.fixedAddress region e).2.gated c x) := by
  cases e with
  | none => rfl
  | some e =>
    simp only [fixedAddress, number_gated c x (hp e rfl) hn]
    split
    · rfl
    · rfl

theorem isPlain_regionParts {kind : Expr} (hp : kind.IsPlain) :
    ∀ e ∈ (regionParts kind).2, e.IsPlain := by
  cases kind with
  | index t base address =>
    intro e he
    obtain rfl := Option.some.inj he
    exact (Expr.isPlain_index.1 hp).2
  | _ => exact fun e he => absurd he (by simp [regionParts])

/-- `SECTION` does the same for every setting, if no attribute asks for the counter. -/
theorem beginSection_gated {name kind : Expr} {attrs : List Expr} (hname : name.IsPlain)
    (hkind : kind.IsPlain) (hattrs : ∀ e ∈ attrs, e.IsPlain)
    (hn : counterName ∉ st.beginSectionLookups name kind attrs) :
    (st.gated c x).beginSection name kind attrs =
      (st.beginSection name kind attrs).gated c x := by
  have haddress := isPlain_regionParts hkind
  rw [beginSectionLookups, List.mem_append, not_or] at hn
  obtain ⟨htitle, hrest⟩ := hn
  unfold beginSection
  simp only [text_gated c x hname htitle]
  rcases hregion : regionOf? (regionParts kind).1 with _ | region
  · rfl
  · rw [hregion, List.mem_append, not_or] at hrest
    simp only [fixedAddress_gated c x haddress hrest.1]
    rcases hfixed : (st.text name).2.fixedAddress region (regionParts kind).2 with
      ⟨_ | address, st'⟩
    · rfl
    · rw [hfixed] at hrest
      simp only [readAttributes_gated c x hattrs hrest.2]
      rcases st'.readAttributes region {} attrs with ⟨_ | attributes, st''⟩
      · rfl
      · exact openSection_gated c x _ _

end State

namespace Assembler

/-- The assembler with another setting of the extensions. -/
def gated (asm : Assembler) (compatibility extensions : Bool) : Assembler :=
  asm.mapState (·.gated compatibility extensions)

/-- Two assemblers that are the same but for the setting of the extensions. -/
def Alike (a b : Assembler) : Prop := ∃ c x, b = a.gated c x

@[simp] theorem state_gated (asm : Assembler) (c x : Bool) :
    (asm.gated c x).state = asm.state.gated c x := rfl

@[simp] theorem files_gated (asm : Assembler) (c x : Bool) : (asm.gated c x).files = asm.files :=
  rfl

@[simp] theorem sources_gated (asm : Assembler) (c x : Bool) :
    (asm.gated c x).sources = asm.sources := rfl

/-- An assembler is like itself with any other setting. -/
theorem alike_gated (a : Assembler) (c x : Bool) : Alike a (a.gated c x) := ⟨c, x, rfl⟩

variable {a b : Assembler}

/-- A change of the state that reads no setting. -/
theorem alike_mapState {f : State → State} {c x : Bool}
    (hf : f (a.state.gated c x) = (f a.state).gated c x) :
    Alike (a.mapState f) ((a.gated c x).mapState f) :=
  ⟨c, x, by simp only [gated, mapState, hf]⟩

/-! ## Keywords -/

section Keywords

variable {args : List Expr}

/-- The range of a file that is put into a section is the same for every setting. -/
theorem alike_includeBytes {e : Expr} {start length : Option Expr} (hp : e.IsPlain)
    (hstart : ∀ e ∈ start, e.IsPlain) (hlength : ∀ e ∈ length, e.IsPlain)
    (hn : counterName ∉ a.state.includeBytesLookups e start length) (word : Token) (c x : Bool) :
    Alike (a.includeBytes word e start length)
      ((a.gated c x).includeBytes word e start length) := by
  unfold State.includeBytesLookups at hn
  unfold includeBytes
  rw [state_gated, State.section?_gated]
  cases hs : a.state.section? with
  | none => exact alike_gated _ c x
  | some body =>
    rw [hs, Option.isSome_some, if_pos rfl, List.mem_append, List.mem_append, not_or,
      not_or] at hn
    simp only [State.text_gated c x hp hn.1.1, State.numberD_gated c x hstart hn.1.2,
      State.numberD_gated c x hlength hn.2]
    simp only [State.gated_file, files_gated]
    split
    · exact alike_gated _ c x
    · generalize (if length.isSome = true then _ else _ : Nat) = past
      split
      · exact alike_mapState (State.emit_gated c x _)
      · exact alike_gated _ c x

/-- Without a level left, the end of a repeat does the same for every setting. -/
theorem alike_endRepeat (word : Token) (c x : Bool) :
    Alike (a.endRepeat none word) ((a.gated c x).endRepeat none word) := by
  unfold endRepeat
  rw [state_gated, State.gated_repeats]
  split
  · exact alike_gated _ c x
  · exact alike_gated _ c x
  · exact alike_gated _ c x

/-- A keyword that does not expand. -/
theorem alike_keywordBody (h : Alike a b) {keyword : Keyword} {label : Option LabelDef}
    (hp : Expr.AllPlain args) (hn : counterName ∉ a.state.keywordLookups keyword label args)
    (word : Token) :
    Alike (a.keywordBody none keyword label word args)
      (b.keywordBody none keyword label word args) := by
  obtain ⟨c, x, rfl⟩ := h
  have hargs := Expr.allPlain_iff.1 hp
  have hhead : ∀ e ∈ args.head?, e.IsPlain := fun e he => hargs e (List.mem_of_mem_head? he)
  unfold keywordBody
  split
  · exact alike_mapState (State.data_gated c x hp word hn)
  · exact alike_mapState (State.data_gated c x hp word hn)
  · exact alike_mapState (State.data_gated c x hp word hn)
  · obtain ⟨hcount, hfill⟩ := List.forall_mem_cons.1 hargs
    exact alike_mapState (State.reserve_gated c x hcount
      (fun e he => hfill e (List.mem_of_mem_head? he)) hn word)
  · exact alike_mapState (State.equ_gated c x (hhead _ rfl) word hn)
  · exact alike_mapState (State.equs_gated c x (hhead _ rfl) word hn)
  · exact alike_mapState (State.assign_gated c x (hhead _ rfl) word hn)
  · exact alike_mapState (State.field_gated c x hhead hn _ word)
  · exact alike_mapState (State.field_gated c x hhead hn _ word)
  · exact alike_mapState (State.field_gated c x hhead hn _ word)
  · exact alike_mapState rfl
  · exact alike_mapState (by simp only [State.number_gated c x (hhead _ rfl) hn]; rfl)
  · obtain ⟨hkey, hvalue⟩ := List.forall_mem_cons.1 hargs
    exact alike_mapState (State.mapText_gated c x hkey (hvalue _ (List.mem_singleton_self _)) hn)
  · exact alike_mapState (State.beginIf_gated c x hargs word hn)
  · exact alike_mapState (State.nextIf_gated c x hargs word hn)
  · exact alike_mapState (State.lastIf_gated c x word)
  · exact alike_mapState (State.endIf_gated c x word)
  · exact alike_mapState (State.beginMacro_gated c x label word args)
  · exact alike_mapState (State.endMacro_gated c x word)
  · exact alike_mapState (State.shift_gated c x hhead hn word)
  · exact alike_mapState (State.beginRepeat_gated c x hargs word hn)
  · exact alike_endRepeat word c x
  · exact alike_mapState (State.beginUnion_gated c x word)
  · exact alike_mapState (State.nextMember_gated c x word)
  · exact alike_mapState (State.endUnion_gated c x word)
  · simp only [includeFile, state_gated, State.text_gated c x (hhead _ rfl) hn]
    exact alike_gated _ c x
  · obtain ⟨hname, hrange⟩ := List.forall_mem_cons.1 hargs
    exact alike_includeBytes hname (fun e he => hrange e (List.mem_of_getElem? he))
      (fun e he => hrange e (List.mem_of_getElem? he)) hn word c x
  · exact alike_mapState (State.exportAll_gated c x args)
  · exact alike_mapState (State.exportAll_gated c x args)
  · exact alike_mapState (State.purge_gated c x args)
  · obtain ⟨hname, hmore⟩ := List.forall_mem_cons.1 hargs
    obtain ⟨hkind, hattrs⟩ := List.forall_mem_cons.1 hmore
    exact alike_mapState (State.beginSection_gated c x hname hkind hattrs hn)
  · exact alike_mapState (State.pushSection_gated c x)
  · exact alike_mapState (State.popSection_gated c x word)
  · exact alike_mapState (State.popOptions_gated c x word)
  · exact alike_mapState (State.userMessage_gated c x (hhead _ rfl) hn _ word)
  · exact alike_mapState (State.userMessage_gated c x (hhead _ rfl) hn _ word)
  · exact alike_mapState (State.printValue_gated c x (hhead _ rfl) hn _)
  · exact alike_mapState (State.printValue_gated c x (hhead _ rfl) hn _)
  · exact alike_mapState (State.printValue_gated c x (hhead _ rfl) hn _)
  · exact alike_mapState (State.printValue_gated c x (hhead _ rfl) hn _)
  · exact alike_mapState (State.reseed_gated c x (hhead _ rfl) hn)
  · exact alike_gated _ c x

end Keywords

/-! ## Lines -/

/-- A directive puts the same setting into both, and they are alike still. -/
theorem alike_directive (h : Alike a b) (word : Token) :
    Alike (a.directive word) (b.directive word) := by
  obtain ⟨c, x, rfl⟩ := h
  unfold directive
  split
  · exact ⟨c, true, rfl⟩
  · exact ⟨c, false, rfl⟩
  · exact alike_gated _ c x

/-- An instruction without a call of the extensions has the same code for every setting. -/
theorem alike_instruction (h : Alike a b) {label : Option LabelDef} {word : Token}
    {args : List Expr} (hp : Expr.AllPlain args)
    (hn : counterName ∉ a.state.instructionLookups label word args) :
    Alike (a.instruction label word args) (b.instruction label word args) := by
  obtain ⟨c, x, rfl⟩ := h
  apply alike_mapState
  unfold State.instructionLookups at hn
  rw [State.section?_gated]
  cases hs : a.state.section? with
  | none => rfl
  | some body =>
    rw [hs, Option.isSome_some, if_pos rfl] at hn
    have hencode := Scope.encode_gated c x hp hn
    dsimp only
    rw [State.defineLabel?_gated]
    generalize a.state.defineLabel? label = st at hencode ⊢
    rw [State.scope_gated, State.emitting_gated c x hencode]
    rcases st.emitting (st.scope.encode word args) with ⟨_ | bytes, st'⟩
    · rfl
    · exact State.emit_gated c x _

theorem alike_defineLabel? (h : Alike a b) (label : Option LabelDef) :
    Alike (a.mapState (·.defineLabel? label)) (b.mapState (·.defineLabel? label)) := by
  obtain ⟨c, x, rfl⟩ := h
  exact alike_mapState (f := (·.defineLabel? label)) (State.defineLabel?_gated c x label)

/-- The label in front of a line, unless the operation names it. -/
theorem alike_labelled (h : Alike a b) (own : Bool) (label : Option LabelDef) :
    Alike (if own then a else a.mapState (·.defineLabel? label))
      (if own then b else b.mapState (·.defineLabel? label)) := by
  cases own with
  | true => exact h
  | false => exact alike_defineLabel? h label

/-- Without a level left, a macro call does the same for every setting. -/
theorem alike_callMacro (h : Alike a b) (name : Token) (args : List Token) :
    Alike (a.callMacro none name args) (b.callMacro none name args) := by
  obtain ⟨c, x, rfl⟩ := h
  unfold callMacro
  rw [state_gated, State.gated_macros]
  split
  · exact alike_gated _ c x
  · exact alike_gated _ c x

theorem alike_optionBody (h : Alike a b) (keyword : Keyword) (args : List Token) :
    Alike (a.optionBody keyword args) (b.optionBody keyword args) := by
  obtain ⟨c, x, rfl⟩ := h
  unfold optionBody
  split
  · exact alike_mapState (State.pushOptions_gated c x args)
  · exact alike_mapState (State.changeOptions_gated c x args)

theorem alike_fault (h : Alike a b) (cause : EvaluationCause) (token : Token) :
    Alike (a.fault cause token) (b.fault cause token) := by
  obtain ⟨c, x, rfl⟩ := h
  exact alike_gated _ c x

/-- A parsed line that does not expand, or that has no level left. -/
theorem alike_execute (h : Alike a b) {line : Line} (hp : line.IsPlain)
    (hn : counterName ∉ line.lookups a) : Alike (execute none line a) (execute none line b) := by
  unfold Line.IsPlain at hp
  unfold Line.lookups at hn
  unfold execute
  rcases hop : line.operation with _ | op
  · exact alike_defineLabel? h _
  · rw [hop] at hp hn
    have hargs : Expr.AllPlain op.operands := hp op rfl
    cases op with
    -- A directive may leave another setting behind, all other lines leave what there is.
    | directive word args => exact alike_directive h word
    | assign word e =>
      obtain ⟨c, x, rfl⟩ := h
      have he : e.IsPlain := Expr.allPlain_iff.1 hargs e (List.mem_singleton_self e)
      exact alike_mapState (State.assign_gated c x he word hn)
    | keyword word args =>
      dsimp only [withKeyword] at hn ⊢
      cases hk : Keyword.ofWord? word.text with
      | none => exact alike_fault h _ _
      | some keyword =>
        rw [hk] at hn
        dsimp only at hn ⊢
        have hlabel := alike_labelled h keyword.namesLabel line.label
        split
        · rename_i harity
          rw [if_pos harity] at hn
          exact alike_keywordBody hlabel hargs hn word
        · exact alike_fault hlabel _ _
    | options word args =>
      dsimp only [withKeyword]
      cases hk : Keyword.ofWord? word.text with
      | none => exact alike_fault h _ _
      | some keyword =>
        have hlabel := alike_labelled h keyword.namesLabel line.label
        dsimp only
        split
        · exact alike_optionBody hlabel keyword args
        · exact alike_fault hlabel _ _
    | opcode word args => exact alike_instruction h hargs hn
    | macroCall name args => exact alike_callMacro (alike_defineLabel? h _) name args

/-! ## Expansions -/

/-- Two expansions that carry out the same lines and do alike what is around them. -/
structure Expansion.Alike (x y : Expansion) : Prop where
  file : y.file = x.file
  start : y.start = x.start
  stop : y.stop = x.stop
  count : y.count = x.count
  opened : Assembler.Alike x.opened y.opened
  close : ∀ {a b : Assembler}, Assembler.Alike a b → Assembler.Alike (x.close a) (y.close b)

/-- A file begins and ends with its own setting of the extensions, whatever it is. -/
theorem alike_ofFile (h : Alike a b) (name : String) :
    Expansion.Alike (ofFile name a) (ofFile name b) := by
  obtain ⟨c, x, rfl⟩ := h
  refine ⟨rfl, rfl, rfl, rfl, ⟨c, !c, rfl⟩, ?_⟩
  rintro a' _ ⟨c', x', rfl⟩
  exact ⟨c', x, rfl⟩

/-- A macro call expands to the same lines for every setting. -/
theorem rel_ofMacro? (h : Alike a b) (name : Token) (args : List Token) :
    Option.Rel Expansion.Alike (a.ofMacro? name args) (b.ofMacro? name args) := by
  obtain ⟨c, x, rfl⟩ := h
  unfold ofMacro?
  rw [state_gated, State.gated_macros]
  cases a.state.macros.get? name.text with
  | none => exact .none
  | some body =>
    refine .some ⟨rfl, rfl, rfl, rfl, ⟨c, x, rfl⟩, ?_⟩
    rintro a' _ ⟨c', x', rfl⟩
    exact ⟨c', x', rfl⟩

/-- The end of a repeat expands to the same lines for every setting. -/
theorem rel_ofRepeat? (h : Alike a b) :
    Option.Rel Expansion.Alike a.ofRepeat? b.ofRepeat? := by
  obtain ⟨c, x, rfl⟩ := h
  unfold ofRepeat?
  rw [state_gated, State.gated_repeats]
  split
  · refine .some ⟨rfl, rfl, rfl, rfl, ⟨c, x, rfl⟩, ?_⟩
    rintro a' _ ⟨c', x', rfl⟩
    exact ⟨c', x', rfl⟩
  · exact .none

/-- An inclusion expands to the same file for every setting. -/
theorem alike_ofInclude (h : Alike a b) {e : Expr} (hp : e.IsPlain)
    (hn : counterName ∉ a.state.scope.evaluateLookups e) :
    Expansion.Alike (a.ofInclude e) (b.ofInclude e) := by
  obtain ⟨c, x, rfl⟩ := h
  unfold ofInclude
  simp only [state_gated, State.text_gated c x hp hn, State.gated_file, files_gated]
  split
  · exact ⟨rfl, rfl, rfl, rfl, alike_gated _ c x, id⟩
  · exact alike_ofFile (alike_gated _ c x) _

/-- What a parsed line expands to. -/
theorem rel_expansion? (h : Alike a b) {line : Line} (hp : line.IsPlain)
    (hn : counterName ∉ line.lookups a) :
    Option.Rel Expansion.Alike (expansion? line a) (expansion? line b) := by
  unfold Line.IsPlain at hp
  unfold Line.lookups at hn
  unfold expansion?
  rcases hop : line.operation with _ | op
  · exact .none
  · rw [hop] at hp hn
    have hargs : Expr.AllPlain op.operands := hp op rfl
    cases op with
    | macroCall name args => exact rel_ofMacro? (alike_defineLabel? h _) name args
    | keyword word args =>
      dsimp only at hn ⊢
      cases hk : Keyword.ofWord? word.text with
      | none => exact .none
      | some keyword =>
        rw [hk] at hn
        dsimp only at hn ⊢
        have hlabel := alike_labelled h keyword.namesLabel line.label
        split
        · rename_i harity
          rw [if_pos harity] at hn
          unfold ofKeyword?
          split
          · exact rel_ofRepeat? hlabel
          · have he := Expr.allPlain_iff.1 hargs _ (List.mem_singleton_self _)
            exact .some (alike_ofInclude hlabel he hn)
          · exact .none
        · exact .none
    | _ => exact .none

end Assembler

end Sm83Asm
