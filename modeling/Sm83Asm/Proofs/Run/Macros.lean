import Sm83Asm.Proofs.Line.Written
import Sm83Asm.Proofs.Run.Labels

set_option autoImplicit false

/-!
# Macros are recorded and replayed

The lines of a macro definition are passed over: only the words that open and close definitions are
looked at, so whatever stands in the body has no effect until the macro is called. What is recorded
is the place of the lines in their file, and a call carries out the lines of that place.

Main statement: carrying out the lines from `MACRO` to `ENDM` adds one macro and moves to the last
line, and nothing else changes. As long as no `PURGE` is carried out the macro stays. A call of it
carries out the lines in between, one level deeper, under a number of its own and in a frame with
the arguments, and takes both back (`macro_recorded_and_replayed`).
-/

namespace Sm83Asm

/-- A table that goes on from another one has its values. -/
theorem Table.Extends.get? {α : Type} {a b : Table α} (h : a.Extends Eq b) {key : String}
    {value : α} (hv : a.get? key = some value) : b.get? key = some value := by
  have hprefix : a.entries <+: b.entries := by
    rw [List.prefix_iff_getElem?]
    intro i hi
    obtain ⟨value', hvalue, rfl⟩ := h i _ _ (List.getElem?_eq_getElem hi)
    exact hvalue
  obtain ⟨rest, hrest⟩ := hprefix
  show b.entries.lookup key = some value
  rw [← hrest, List.lookup_append, show a.entries.lookup key = some value from hv]
  rfl

/-- Inside a definition, lines with the words that open and close definitions are parsed. -/
theorem State.passOver?_of_macroDefs (st : State) (definition : MacroDef)
    (hm : st.macroDefs = [definition]) (line : Nat) (cs : List Char) :
    st.passOver? (st.rawTokens line cs) =
      match findKeyword? [.macroStart, .macroEnd] (st.rawTokens line cs) with
      | some _ => none
      | none => some (.ignored (.start line)) := by
  unfold State.passOver?
  rw [State.head?_rawTokens, hm]
  rfl

theorem State.endMacro_sole (st : State) (word : Token) (definition : MacroDef)
    (hm : st.macroDefs = [definition]) (hname : st.isDefined definition.name = false) :
    st.endMacro word =
      { st with
        macroDefs := []
        macros := ⟨st.macros.entries ++
          [(definition.name, ⟨definition.file, definition.startLine, st.line⟩)]⟩ } := by
  have hfresh : definition.name ∉ st.macros.keys := by
    intro hmem
    rw [← Table.contains_iff] at hmem
    simp [State.isDefined, hmem] at hname
  have hname' : State.isDefined { st with macroDefs := [] } definition.name = false := hname
  have hinsert := Table.entries_insert_of_not_mem
    (⟨definition.file, definition.startLine, st.line⟩ : Macro) hfresh
  unfold State.endMacro
  rw [hm]
  dsimp only
  rw [if_neg (by simp [hname']), ← hinsert]

theorem State.macros_defineLabel? (st : State) (label : Option LabelDef) :
    (st.defineLabel? label).macros = st.macros := by
  cases label with
  | none => rfl
  | some label =>
    show (st.defineLabel label).macros = st.macros
    unfold State.defineLabel
    dsimp only
    split
    · split
      · rfl
      · split
        · rfl
        · obtain ⟨openLabel, labels, hclose, -⟩ := st.closeLabel_footprint
          rw [hclose]
    · rfl

namespace Assembler

/-- Lines that are written as the definition of a macro, the first of them with a number: `MACRO`
and a name, lines without these words, and `ENDM`. -/
structure DefinesMacro (asm : Assembler) (name : String) (line : Nat) (opening : String)
    (body : List String) (closing : String) : Prop where
  opens : ∃ word, Keyword.ofWord? word = some .macroStart ∧
    asm.state.words line opening = [(.keyword, word), (.identifier, name)]
  inside : ∀ i text, body[i]? = some text →
    asm.state.writtenKeyword? [.macroStart, .macroEnd] (line + 1 + i) text = none
  closes : ∃ word, Keyword.ofWord? word = some .macroEnd ∧
    asm.state.words (line + 1 + body.length) closing = [(.keyword, word)]

/-- Sets the macro definitions that are open, and moves to a line. -/
def defining (asm : Assembler) (macroDefs : List MacroDef) (line : Nat) : Assembler :=
  asm.mapState fun st => { st with macroDefs, line }

/-! ## Recording -/

section Recording

variable {asm : Assembler} {name opening closing : String} {line : Nat}

/-- The line that opens a definition. -/
theorem runLine_macro (next : Option LineRunner) {word : String}
    (hm : asm.state.macroDefs = []) (hr : asm.state.repeats = [])
    (hlive : asm.state.conditionsTrue = true) (hname : asm.state.strings.contains name = false)
    (hk : Keyword.ofWord? word = some .macroStart)
    (hwords : asm.state.words line opening = [(.keyword, word), (.identifier, name)]) :
    runLine next line opening asm = asm.defining [⟨name, asm.state.file, line⟩] line := by
  have hfound : asm.state.writtenKeyword? blockWords line opening = none := by
    rw [State.writtenKeyword?_eq_findSome?, hwords]
    simp [keywordAmong?, hk]
  have hpass : asm.state.passOver? (asm.state.rawTokens line opening.toList) = none := by
    rw [State.passOver?_of_plain _ hm hr, State.writtenKeyword?_eq_none hfound]
    exact if_pos hlive
  have hwords' : (asm.atLine line).state.words line opening =
      (.keyword, word) :: [name].map fun name => (.identifier, name) := hwords
  obtain ⟨parsed, t, ts, hlabel, hop, rfl, hts, hread⟩ :=
    State.read_of_words hwords' hk rfl (by simp) (by simp) (Nat.le_refl 1)
      (List.forall_mem_singleton.2 hname)
  obtain ⟨u, rfl, rfl⟩ := List.map_eq_singleton_iff.1 hts
  have hparsed := @Row.parsed?_of_read ⟨line, opening⟩ asm parsed _ hpass hread
  rw [runLine_of_parsed? next hparsed, execute_keyword next hlabel hop hk rfl]
  show asm.mapState (fun st => { st with macroDefs := _ :: st.macroDefs, line }) = asm.mapState _
  rw [mapState, hm]
  rfl

/-- A line of the body does nothing. -/
theorem runLine_defining (next : Option LineRunner) {text : String} (definition : MacroDef)
    (l : Nat)
    (hw : asm.state.writtenKeyword? [.macroStart, .macroEnd] line text = none) :
    runLine next line text (asm.defining [definition] l) = asm.defining [definition] line := by
  have hpass := State.passOver?_of_macroDefs (asm.defining [definition] l).state definition rfl line
    text.toList
  have hraw : (asm.defining [definition] l).state.rawTokens = asm.state.rawTokens := rfl
  rw [hraw, State.writtenKeyword?_eq_none hw] at hpass
  exact runLine_of_ignored next hpass

/-- The line that closes a definition. -/
theorem runLine_endm (next : Option LineRunner) {word : String} (definition : MacroDef) (l : Nat)
    (hm : asm.state.macroDefs = [])
    (hname : asm.state.isDefined definition.name = false)
    (hk : Keyword.ofWord? word = some .macroEnd)
    (hwords : asm.state.words line closing = [(.keyword, word)]) :
    runLine next line closing (asm.defining [definition] l) =
      asm.mapState fun st =>
        { st with
          line
          macros := ⟨st.macros.entries ++
            [(definition.name, ⟨definition.file, definition.startLine, line⟩)]⟩ } := by
  have hfound : asm.state.writtenKeyword? [.macroStart, .macroEnd] line closing =
      some .macroEnd := by
    rw [State.writtenKeyword?_eq_findSome?, hwords]
    simp [keywordAmong?, hk]
  obtain ⟨found, hfound', -⟩ := State.writtenKeyword?_eq_some hfound
  have hpass := State.passOver?_of_macroDefs (asm.defining [definition] l).state definition rfl line
    closing.toList
  have hraw : (asm.defining [definition] l).state.rawTokens = asm.state.rawTokens := rfl
  rw [hraw, hfound'] at hpass
  -- The line is nothing but its keyword, so it is read in full although a definition is open.
  have hwords' : ((asm.defining [definition] l).atLine line).state.words line closing =
      (.keyword, word) :: [].map fun name => (.identifier, name) := hwords
  obtain ⟨parsed, t, ts, hlabel, hop, rfl, hts, hread⟩ :=
    State.read_of_words hwords' hk rfl (by simp) (by simp) (Nat.zero_le 1) (by simp)
  obtain rfl := List.map_eq_nil_iff.1 hts
  have hparsed := @Row.parsed?_of_read ⟨line, closing⟩ (asm.defining [definition] l) parsed _ hpass
    hread
  rw [runLine_of_parsed? next hparsed, execute_keyword next hlabel hop hk rfl]
  have hend := State.endMacro_sole ((asm.defining [definition] l).atLine line).state t definition
    rfl hname
  show ((asm.defining [definition] l).atLine line).mapState (·.endMacro t) = _
  rw [mapState, hend, ← hm]
  rfl

/-- Lines of the body do nothing, one after the other. -/
theorem runNumbered_defining (next : Option LineRunner) (definition : MacroDef)
    (body : List String) (l : Nat)
    (h : ∀ i text, body[i]? = some text →
      asm.state.writtenKeyword? [.macroStart, .macroEnd] (l + 1 + i) text = none) :
    runNumbered (runLine next) (l + 1) body (asm.defining [definition] l) =
      asm.defining [definition] (l + body.length) := by
  induction body generalizing l with
  | nil => rfl
  | cons text body ih =>
    have hfirst : runLine next (l + 1) text (asm.defining [definition] l) =
        asm.defining [definition] (l + 1) := runLine_defining next definition l (h 0 text rfl)
    have hrest : ∀ i other, body[i]? = some other →
        asm.state.writtenKeyword? [.macroStart, .macroEnd] (l + 1 + 1 + i) other = none := by
      intro i other hother
      rw [Nat.add_assoc (l + 1) 1 i, Nat.add_comm 1 i]
      exact h (i + 1) other hother
    rw [runNumbered, hfirst, ih (l + 1) hrest, List.length_cons, Nat.add_right_comm]
    rfl

/-- From the line that opens a definition to the one that closes it, one macro is added. -/
theorem runNumbered_macro (levels : Nat) {body : List String} (hm : asm.state.macroDefs = [])
    (hr : asm.state.repeats = []) (hlive : asm.state.conditionsTrue = true)
    (hname : asm.state.isDefined name = false)
    (h : asm.DefinesMacro name line opening body closing) :
    runNumbered (runner levels) line (opening :: body ++ [closing]) asm =
      asm.mapState fun st =>
        { st with
          line := line + 1 + body.length
          macros := ⟨st.macros.entries ++
            [(name, ⟨st.file, line, line + 1 + body.length⟩)]⟩ } := by
  obtain ⟨word, hword, hopens⟩ := h.opens
  obtain ⟨last, hlast, hcloses⟩ := h.closes
  have hstring : asm.state.strings.contains name = false := by
    simp only [State.isDefined, Bool.or_eq_false_iff] at hname
    exact hname.1.1.1.2
  have hlength : line + (opening :: body).length = line + 1 + body.length := by
    rw [List.length_cons]
    omega
  have hbody := runNumbered_defining (inner? levels) ⟨name, asm.state.file, line⟩ body line h.inside
  have hend := runLine_endm (inner? levels) ⟨name, asm.state.file, line⟩ (line + body.length) hm
    hname hlast hcloses
  have hbegun : runNumbered (runLine (inner? levels)) line (opening :: body) asm =
      asm.defining [⟨name, asm.state.file, line⟩] (line + body.length) := by
    rw [runNumbered, runLine_macro (inner? levels) hm hr hlive hstring hword hopens]
    exact hbody
  rw [runner_eq, runNumbered_append, hlength, hbegun]
  exact hend

end Recording

/-! ## Replaying -/

/-- The macro call that a line asks for: its name, its arguments, and the assembler once the label
in front of it has been defined. -/
def callOf? (line : Nat) (text : String) (asm : Assembler) :
    Option (Token × List Token × Assembler) :=
  (parsed? line text asm).bind fun (parsed, asm) =>
    match parsed.operation with
    | some (.macroCall name args) => some (name, args, asm.mapState (·.defineLabel? parsed.label))
    | _ => none

/-- Begins a macro call: it gets the next number and a frame. -/
def enterFrame (asm : Assembler) (frame : MacroFrame) : Assembler :=
  asm.mapState fun st =>
    { st with
      expansions := st.expansions + 1
      uniqueIds := (st.expansions + 1) :: st.uniqueIds
      frames := frame :: st.frames }

/-- Ends a macro call. -/
def leaveFrame (asm : Assembler) : Assembler :=
  asm.mapState fun st => { st with uniqueIds := st.uniqueIds.tail, frames := st.frames.tail }

theorem enterFrame_eq (asm : Assembler) (frame : MacroFrame) :
    asm.enterFrame frame =
      asm.beginExpansion.mapState fun st => { st with frames := frame :: st.frames } := rfl

theorem leaveFrame_eq (asm : Assembler) :
    asm.leaveFrame = (asm.mapState fun st => { st with frames := st.frames.tail }).endExpansion :=
  rfl

theorem callOf?_eq_some {line : Nat} {text : String} {asm caller : Assembler} {name : Token}
    {args : List Token} (h : asm.callOf? line text = some (name, args, caller)) :
    ∃ parsed asm', parsed? line text asm = some (parsed, asm') ∧
      parsed.operation = some (.macroCall name args) ∧
      caller = asm'.mapState (·.defineLabel? parsed.label) := by
  obtain ⟨⟨parsed, asm'⟩, hparsed, hcall⟩ := Option.bind_eq_some_iff.1 h
  dsimp only at hcall
  split at hcall
  · rename_i name' args' hop
    simp only [Option.some.injEq, Prod.mk.injEq] at hcall
    obtain ⟨rfl, rfl, rfl⟩ := hcall
    exact ⟨parsed, asm', hparsed, hop, rfl⟩
  · exact absurd hcall (by simp)

/-- Up to the call nothing has happened to the bearings, to the macros and to the files. -/
theorem callOf?_footprint {line : Nat} {text : String} {asm caller : Assembler} {name : Token}
    {args : List Token} (h : asm.callOf? line text = some (name, args, caller)) :
    caller.state.bearings = { asm.state.bearings with line } ∧
      caller.state.macros = asm.state.macros ∧ caller.sources = asm.sources := by
  obtain ⟨parsed, asm', hparsed, -, rfl⟩ := callOf?_eq_some h
  obtain ⟨diagnostics, rfl⟩ := parsed?_footprint hparsed
  refine ⟨State.bearings_defineLabel? _ _, State.macros_defineLabel? _ _, rfl⟩

/-- A macro call carries out the lines of the macro, one level deeper. -/
theorem runner_call {asm caller : Assembler} {depth line : Nat} {text : String} {name : Token}
    {args : List Token} {body : Macro} (hdepth : depth < asm.state.config.maxDepth)
    (hcall : asm.callOf? line text = some (name, args, caller))
    (hbody : asm.state.macros.get? name.text = some body) :
    asm.runnerAt depth line text asm =
      (runLines (asm.runnerAt (depth + 1)) body.file body.startLine (body.endLine - 1)
        (caller.enterFrame ⟨name.text, args.map Token.text, 0⟩)).leaveFrame := by
  obtain ⟨parsed, asm', hparsed, hop, hcaller⟩ := callOf?_eq_some hcall
  obtain ⟨-, hmacros, -⟩ := callOf?_footprint hcall
  obtain ⟨levels, hlevels⟩ : ∃ levels, asm.state.config.maxDepth - depth = levels + 1 :=
    ⟨asm.state.config.maxDepth - depth - 1, by omega⟩
  have hrun : asm.runnerAt depth = runLine (some (runner levels)) := by
    rw [runnerAt, hlevels]
    rfl
  have hdeeper : asm.runnerAt (depth + 1) = runner levels := by
    rw [runnerAt, show asm.state.config.maxDepth - (depth + 1) = levels by omega]
  have hexecute : ∀ next, execute next parsed asm' = caller.callMacro next name args := by
    intro next
    rw [execute, hop, hcaller]
  rw [hrun, hdeeper, runLine_of_parsed? _ hparsed, hexecute, callMacro, hmacros, hbody,
    enterFrame_eq, leaveFrame_eq]
  rfl

/-- Whatever lines are carried out in a frame, the frames and the numbers around it stay. -/
theorem leaveFrame_runLines (asm : Assembler) (frame : MacroFrame) (levels : Nat) (file : String)
    (start stop : Nat) :
    let after := (runLines (runner levels) file start stop (asm.enterFrame frame)).leaveFrame
    after.state.frames = asm.state.frames ∧ after.state.uniqueIds = asm.state.uniqueIds := by
  have hkept := (balanced_runLines levels file start stop (asm.enterFrame frame)).bearings
  obtain ⟨n, hframes⟩ := hkept.frames
  constructor
  · -- A shift inside the call is lost with its frame.
    exact congrArg List.tail hframes
  · exact congrArg List.tail hkept.uniqueIds

/-- As long as no `PURGE` is carried out, macros stay what they are. -/
theorem get?_macros_of_history {levels line : Nat} {text : String} {asm : Assembler}
    (h : ∀ m ∈ history levels line text asm, m.visit.word? ≠ some .purge) {name : String}
    {body : Macro} (hbody : asm.state.macros.get? name = some body) :
    ∀ m ∈ history levels line text asm, m.asm.state.macros.get? name = some body := by
  have hnames : Kept (fun v => v.word? ≠ some .purge) fun a b =>
      a.state.stores.NamesKept b.state.stores :=
    kept_of_changes Stores.NamesKept.refl Stores.NamesKept.trans
      (Stores.namesKept_of_change (by simp)) Stores.namesKept_of_change
  intro m hm
  have hkept := (hnames.compositional.of_line levels line text asm h).from_first m hm
  exact hkept.macros.get? hbody

theorem drop_take_body (front : List String) (opening : String) (body back : List String) :
    ((front ++ opening :: body ++ back).drop (front.length + 1)).take
      (front.length + 1 + 1 + body.length - 1 - (front.length + 1)) = body := by
  have hcount : front.length + 1 + 1 + body.length - 1 - (front.length + 1) = body.length := by
    omega
  have hsplit : front ++ opening :: body ++ back = (front ++ [opening]) ++ (body ++ back) := by
    simp
  rw [hcount, hsplit, List.drop_left' (by simp), List.take_left]

/-! ## Main statement -/

/-- The bodies of macros are recorded as they are and replayed exactly. Where no macro definition
and no repeat is open and the branch is live, let the lines of a file from number `start` to number
`stop` be written as the definition of a macro whose name is not defined yet. Carrying them out
moves to the last of them and adds the macro at the end of the table, and nothing else changes. The
macro stays what it is as long as no `PURGE` is carried out. A call of it in any later state, with
the file still as it was and a level left, is carrying out the lines in between, one level deeper,
under the next number, which is not in use, and in a frame with the arguments, of which none are
shifted away; then both are taken back, and the calls around are as they were. -/
theorem macro_recorded_and_replayed {asm : Assembler} {file name opening closing : String}
    {front body back : List String}
    (hfile : asm.sources.get? file = some (front ++ opening :: body ++ closing :: back))
    (hm : asm.state.macroDefs = []) (hr : asm.state.repeats = [])
    (hlive : asm.state.conditionsTrue = true) (hname : asm.state.isDefined name = false)
    (hdef : asm.DefinesMacro name (front.length + 1) opening body closing) :
    let start := front.length + 1
    let stop := start + 1 + body.length
    let entry : Macro := ⟨file, start, stop⟩
    (∀ levels, runNumbered (runner levels) start (opening :: body ++ [closing]) (asm.enter file) =
      (asm.enter file).mapState fun st =>
        { st with line := stop, macros := ⟨st.macros.entries ++ [(name, entry)]⟩ }) ∧
    (∀ (later : Assembler) (levels line : Nat) (text : String),
      (∀ m ∈ history levels line text later, m.visit.word? ≠ some .purge) →
      later.state.macros.get? name = some entry →
        ∀ m ∈ history levels line text later, m.asm.state.macros.get? name = some entry) ∧
    ∀ (later caller : Assembler) (depth line : Nat) (text : String) (word : Token)
      (args : List Token), later.state.macros.get? name = some entry →
      later.sources.get? file = asm.sources.get? file → depth < later.state.config.maxDepth →
      later.callOf? line text = some (word, args, caller) → word.text = name →
        let after := later.runnerAt depth line text later
        let inside := caller.enterFrame ⟨name, args.map Token.text, 0⟩
        after = ((runNumbered (later.runnerAt (depth + 1)) (start + 1) body
          (inside.enter file)).back inside).leaveFrame ∧
        after.state.frames = later.state.frames ∧
        after.state.uniqueIds = later.state.uniqueIds ∧
        (Numbered later.state → later.state.expansions + 1 ∉ later.state.uniqueIds) := by
  intro start stop entry
  have hdef' : (asm.enter file).DefinesMacro name start opening body closing :=
    ⟨hdef.opens, hdef.inside, hdef.closes⟩
  refine ⟨fun levels => runNumbered_macro levels hm hr hlive hname hdef', ?_, ?_⟩
  · intro later levels line text hpurge hentry
    exact get?_macros_of_history hpurge hentry
  · rintro later caller depth line text word args hentry hsame hdepth hcall rfl after inside
    obtain ⟨hbearings, -, hsources⟩ := callOf?_footprint hcall
    -- The file is as it was, so the same lines are carried out that were recorded.
    have hlines : inside.sources.get? file =
        some (front ++ opening :: body ++ closing :: back) := by
      show caller.sources.get? file = _
      rw [hsources, hsame, hfile]
    have hafter : after = (runLines (later.runnerAt (depth + 1)) file start (stop - 1)
        inside).leaveFrame := runner_call hdepth hcall hentry
    obtain ⟨hframes, hids⟩ := caller.leaveFrame_runLines ⟨word.text, args.map Token.text, 0⟩
      (later.state.config.maxDepth - (depth + 1)) file start (stop - 1)
    refine ⟨?_, ?_, ?_, ?_⟩
    · rw [hafter, runLines_of_some _ start (stop - 1) hlines,
        drop_take_body front opening body (closing :: back)]
    · rw [hafter]
      exact hframes.trans (congrArg Bearings.frames hbearings)
    · rw [hafter]
      exact hids.trans (congrArg Bearings.uniqueIds hbearings)
    · -- Numbers are given in ascending order, so the next one is larger than all that are in use.
      intro hnumbered hmem
      exact absurd (hnumbered.bounded _ hmem) (by omega)

/-- The assembler in front of a macro whose body closes a conditional block that is not open. -/
def twiceStart : Assembler :=
  (new {} (.memory {})).load "a"
    "; bytes\n MACRO twice ; a byte\n DB \\1, \\1\n ENDC\n ENDM\n twice 7\n"

/-- The assembler behind the macro. -/
def twiceDefined : Assembler :=
  (twiceStart.enter "a").mapState fun st =>
    { st with line := 5, macros := ⟨st.macros.entries ++ [("twice", ⟨"a", 2, 5⟩)]⟩ }

theorem definesMacro_twice :
    twiceStart.DefinesMacro "twice" 2 " MACRO twice ; a byte" [" DB \\1, \\1", " ENDC"]
      " ENDM" where
  opens := ⟨"MACRO", by decide +kernel, by decide +kernel⟩
  inside i text h := by
    match i with
    | 0 =>
      obtain rfl := Option.some.inj h
      decide +kernel
    | 1 =>
      obtain rfl := Option.some.inj h
      decide +kernel
    | i + 2 => exact absurd h (by simp)
  closes := ⟨"ENDM", by decide +kernel, by decide +kernel⟩

theorem macro_twice_replayed :
    runNumbered (runner 0) 2 [" MACRO twice ; a byte", " DB \\1, \\1", " ENDC", " ENDM"]
        (twiceStart.enter "a") = twiceDefined ∧
      ∃ word args caller, twiceDefined.callOf? 6 " twice 7" = some (word, args, caller) ∧
        twiceDefined.runnerAt 0 6 " twice 7" twiceDefined =
          ((runNumbered (twiceDefined.runnerAt 1) 3 [" DB \\1, \\1", " ENDC"]
            ((caller.enterFrame ⟨"twice", ["7"], 0⟩).enter "a")).back
              (caller.enterFrame ⟨"twice", ["7"], 0⟩)).leaveFrame := by
  have hfile : twiceStart.sources.get? "a" = some (["; bytes"] ++
      " MACRO twice ; a byte" :: [" DB \\1, \\1", " ENDC"] ++ " ENDM" :: [" twice 7"]) := by
    decide +kernel
  obtain ⟨hdefined, -, hreplayed⟩ := macro_recorded_and_replayed hfile (by decide +kernel)
    (by decide +kernel) (by decide +kernel) (by decide +kernel) definesMacro_twice
  refine ⟨hdefined 0, ?_⟩
  have hcall : (twiceDefined.callOf? 6 " twice 7").map
      (fun call => (call.1.text, call.2.1.map Token.text)) = some ("twice", ["7"]) := by
    decide +kernel
  obtain ⟨⟨word, args, caller⟩, hcall, hsame⟩ := Option.map_eq_some_iff.1 hcall
  obtain ⟨hword, hargs⟩ := Prod.mk.inj hsame
  refine ⟨word, args, caller, hcall, ?_⟩
  have hafter := (hreplayed twiceDefined caller 0 6 " twice 7" word args (by decide +kernel) rfl
    (by decide +kernel) hcall hword).1
  dsimp only at hargs
  rw [hargs] at hafter
  exact hafter

end Assembler

end Sm83Asm
