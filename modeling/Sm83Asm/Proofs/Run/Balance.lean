import Sm83Asm.Proofs.Execute.Bearings
import Sm83Asm.Proofs.Table

set_option autoImplicit false

/-!
# Lines leave their frames balanced

A line may carry out many more, but it ends where it began: in the same file, inside the same
macro calls and with the same numbers of expansions. All that can stay behind of the calls is a
shift of the innermost one.

Main statements: `balanced_runner` for all that a line leaves as it was, `line_runner` for its
number, and `extensions_runner` for what an inclusion puts back.
-/

namespace Sm83Asm

namespace Assembler

/-! ## Files that were read -/

/-- The files that were read before are still known. -/
def Remembers (a b : Assembler) : Prop :=
  ∀ name, a.sources.contains name = true → b.sources.contains name = true

theorem Remembers.of_eq {a b : Assembler} (h : b.sources = a.sources) : Remembers a b := by
  intro name hname
  rwa [h]

/-- What is remembered in two steps. -/
theorem Remembers.trans {a b c : Assembler} (hab : Remembers a b) (hbc : Remembers b c) :
    Remembers a c := fun name hname => hbc name (hab name hname)

/-- One more file is remembered. -/
theorem remembers_load (a : Assembler) (files : FileStore) (name text : String) :
    Remembers a ({ a with files }.load name text) := fun _ hother =>
  Table.contains_insert_of_contains hother _ _

/-- The bytes of a file are put into a section, and its lines are not remembered. -/
theorem sources_includeBytes (asm : Assembler) (word : Token) (e : Expr)
    (start length : Option Expr) :
    (asm.includeBytes word e start length).sources = asm.sources := by
  unfold includeBytes
  split
  · rfl
  · dsimp only
    split
    · rfl
    · generalize (if length.isSome = true then _ else _ : Nat) = past
      split
      · rfl
      · rfl

/-- Without a level left, a keyword reads no lines. -/
theorem sources_keywordBody (asm : Assembler) (keyword : Keyword) (label : Option LabelDef)
    (word : Token) (args : List Expr) :
    (asm.keywordBody none keyword label word args).sources = asm.sources := by
  unfold keywordBody
  split
  case h_22 => unfold endRepeat; split <;> rfl
  case h_27 => exact sources_includeBytes _ _ _ _ _
  all_goals rfl

/-- A label in front of a keyword reads no lines. -/
theorem sources_withKeyword (asm : Assembler) (label : Option LabelDef) (word : Token) (count : Nat)
    {body : Keyword → Assembler → Assembler}
    (hbody : ∀ keyword (asm : Assembler), (body keyword asm).sources = asm.sources) :
    (asm.withKeyword label word count body).sources = asm.sources := by
  unfold withKeyword
  cases Keyword.ofWord? word.text with
  | none => rfl
  | some keyword =>
    have hlabel : (if keyword.namesLabel then asm
        else asm.mapState (·.defineLabel? label)).sources = asm.sources := by
      cases keyword.namesLabel <;> rfl
    dsimp only
    split
    · rw [hbody, hlabel]
    · exact hlabel

/-- A line that expands to nothing, or that has no level left, reads no lines. -/
theorem sources_execute (asm : Assembler) (line : Line) :
    (execute none line asm).sources = asm.sources := by
  unfold execute
  rcases line.operation with _ | op
  · rfl
  · cases op with
    | directive word args =>
      dsimp only [directive]
      split
      · rfl
      · rfl
      · rfl
    | keyword word args =>
      exact asm.sources_withKeyword _ _ _ fun keyword asm' =>
        asm'.sources_keywordBody keyword _ word args
    | options word args =>
      refine asm.sources_withKeyword _ _ _ fun keyword asm' => ?_
      unfold optionBody
      split
      · rfl
      · rfl
    | macroCall name args =>
      dsimp only [callMacro]
      split
      · rfl
      · rfl
    | assign word e => rfl
    | opcode word args => rfl

/-- Of its own account a line of text reads no lines of files. -/
theorem sources_runLine (asm : Assembler) (line : Nat) (text : String) :
    (runLine none line text asm).sources = asm.sources := by
  unfold runLine
  rcases statement line text { asm.state with line } with ⟨parsed | _ | _, st⟩
  · exact sources_execute _ parsed
  · rfl
  · rfl

/-- The end of an expansion, and its beginning but for a file that is read, leave the files that
were read alone. -/
theorem remembers_expansion? {asm : Assembler} {line : Line} {x : Expansion}
    (h : expansion? line asm = some x) :
    Remembers asm x.opened ∧ ∀ b, (x.close b).sources = b.sources := by
  obtain ⟨asm', hlabel, hx⟩ := expansion?_cases h
  have hsources : asm'.sources = asm.sources := by
    rcases hlabel with rfl | rfl
    · rfl
    · rfl
  rcases hx with ⟨name, args, hx⟩ | hx | ⟨e, rfl⟩
  · obtain ⟨body, -, rfl⟩ := Option.map_eq_some_iff.1 hx
    exact ⟨.of_eq hsources, fun _ => rfl⟩
  · unfold ofRepeat? at hx
    split at hx
    · cases hx
      exact ⟨.of_eq hsources, fun _ => rfl⟩
    · exact absurd hx (by simp)
  · unfold ofInclude
    dsimp only
    split
    · exact ⟨.of_eq hsources, fun _ => rfl⟩
    · rename_i name contents files hr
      exact ⟨.trans (.of_eq hsources)
        (remembers_load asm' files name (Text.decode contents.toList)), fun _ => rfl⟩

/-- Only an inclusion reads a file, as it begins. -/
theorem remembers_expansionOf? {asm : Assembler} {line : Nat} {text : String} {x : Expansion}
    (h : expansionOf? line text asm = some x) :
    Remembers asm x.opened ∧ ∀ b, (x.close b).sources = b.sources := by
  obtain ⟨⟨parsed, asm'⟩, hp, hx⟩ := Option.bind_eq_some_iff.1 h
  have hsources : asm'.sources = asm.sources := by
    obtain ⟨st, -, rfl⟩ := of_parsed? hp
    rfl
  obtain ⟨hopen, hclose⟩ := remembers_expansion? hx
  exact ⟨.trans (.of_eq hsources) hopen, hclose⟩

/-! ## Balance -/

end Assembler

namespace Bearings

/-- Bearings that agree but for the line, the extensions and the count of expansions. Of the macro
calls, only the innermost may have been shifted. -/
structure Agree (a b : Bearings) : Prop where
  config : b.config = a.config
  file : b.file = a.file
  uniqueIds : b.uniqueIds = a.uniqueIds
  frames : ∃ n, b.frames = MacroFrame.dropInner a.frames n

theorem Agree.refl (a : Bearings) : Agree a a :=
  ⟨rfl, rfl, rfl, 0, (MacroFrame.dropInner_zero _).symm⟩

theorem Agree.trans {a b c : Bearings} (hab : Agree a b) (hbc : Agree b c) : Agree a c := by
  obtain ⟨m, hm⟩ := hab.frames
  obtain ⟨n, hn⟩ := hbc.frames
  refine ⟨hbc.config.trans hab.config, hbc.file.trans hab.file,
    hbc.uniqueIds.trans hab.uniqueIds, m + n, ?_⟩
  rw [hn, hm, MacroFrame.dropInner_dropInner]

/-- A move changes the line and what is put back later. -/
theorem Moves.agree {a b : Bearings} {line : Nat} (h : Moves { a with line } b) : Agree a b := by
  obtain ⟨extensions, n, rfl⟩ := h
  exact ⟨rfl, rfl, rfl, n, rfl⟩

/-- The end of an expansion takes back what its beginning opened, as long as the lines in between
leave the bearings alone. -/
theorem Opens.agree {a opened b : Bearings} {line : Nat} {close : Bearings → Bearings}
    (h : Opens { a with line } opened close) (hb : Agree opened b) : Agree a (close b) := by
  obtain ⟨hconfig, hfile, hids, n, hframes⟩ := hb
  cases h with
  | call frame =>
    refine ⟨hconfig, hfile, ?_, 0, ?_⟩
    · show b.uniqueIds.tail = a.uniqueIds
      rw [hids]
      rfl
    · show b.frames.tail = _
      rw [hframes, MacroFrame.dropInner_zero]
      rfl
  | replay =>
    refine ⟨hconfig, hfile, ?_, n, hframes⟩
    show b.uniqueIds.tail = a.uniqueIds
    rw [hids]
    rfl
  | file extensions => exact ⟨hconfig, hfile, hids, n, hframes⟩
  | missing => exact ⟨hconfig, hfile, hids, n, hframes⟩

end Bearings

namespace Assembler

open Bearings

/-- What is the same before and after a line. -/
structure Balanced (a b : Assembler) : Prop where
  bearings : Agree a.state.bearings b.state.bearings
  remembers : Remembers a b

theorem Balanced.trans {a b c : Assembler} (hab : Balanced a b) (hbc : Balanced b c) :
    Balanced a c :=
  ⟨hab.bearings.trans hbc.bearings, hab.remembers.trans hbc.remembers⟩

/-- Lines and expansions are balanced, and so is all that is put together from them. -/
theorem compositional_balanced : Compositional fun _ a _ b => Balanced a b where
  nil _ a := ⟨.refl _, .of_eq rfl⟩
  append hab hbc := hab.trans hbc
  plain v hv := by
    rw [Visit.after_eq_runLine hv]
    exact ⟨(v.before.moves_runLine v.line v.text).agree, .of_eq (sources_runLine _ _ _)⟩
  expanded v x n ms b _ hx hafter hb := by
    obtain ⟨close, hopens, hclose⟩ := v.before.opens_of_expansionOf? hx
    obtain ⟨hopened, hclosed⟩ := remembers_expansionOf? hx
    rw [hafter]
    refine ⟨?_, hopened.trans (hb.remembers.trans (.of_eq (hclosed b)))⟩
    rw [hclose b]
    exact hopens.agree hb.bearings
  unread _ a file _ := ⟨.refl _, .of_eq rfl⟩
  range hb :=
    ⟨⟨hb.bearings.config, rfl, hb.bearings.uniqueIds, hb.bearings.frames⟩, hb.remembers⟩
  file hb :=
    ⟨⟨hb.bearings.config, hb.bearings.file, hb.bearings.uniqueIds, hb.bearings.frames⟩,
      hb.remembers⟩
  load _ a files name text := ⟨.refl _, remembers_load a files name text⟩

/-- Whatever a line expands to, and whether or not it could, it leaves its frames balanced. -/
theorem balanced_runner (levels line : Nat) (text : String) (asm : Assembler) :
    Balanced asm (runner levels line text asm) :=
  compositional_balanced.of_line levels line text asm

/-- The lines of a range are balanced. -/
theorem balanced_runLines (levels : Nat) (file : String) (start stop : Nat) (asm : Assembler) :
    Balanced asm (runLines (runner levels) file start stop asm) :=
  @Compositional.of_lines _ levels _ (history levels) compositional_balanced
    (compositional_balanced.of_line levels) file start stop asm

/-- Nothing that is carried out changes the configuration. -/
theorem config_run (source : Source) (asm : Assembler) :
    (source.run asm).state.config = asm.state.config :=
  (compositional_balanced.of_source asm source).bearings.config

/-! ## The number of the line -/

/-- A range of lines goes back to the line that it was carried out from. -/
theorem line_runLines (run : LineRunner) (file : String) (start stop : Nat) (asm : Assembler) :
    (runLines run file start stop asm).state.line = asm.state.line := by
  unfold runLines
  cases asm.sources.get? file with
  | none => rfl
  | some lines => rfl

/-- Going through a range a number of times goes back to the same line. -/
theorem line_runRepeatedly (run : LineRunner) (file : String) (start stop count : Nat)
    (asm : Assembler) :
    (runRepeatedly run file start stop count asm).state.line = asm.state.line := by
  induction count generalizing asm with
  | zero => rfl
  | succ count ih => rw [runRepeatedly, ih, line_runLines]

/-- After a line the run stands at its number, wherever it was in between. -/
theorem line_runner (levels line : Nat) (text : String) (asm : Assembler) :
    (runner levels line text asm).state.line = line := by
  have hplain : (runLine none line text asm).state.line = line := by
    obtain ⟨extensions, n, h⟩ := asm.moves_runLine line text
    exact congrArg Bearings.line h
  cases levels with
  | zero => exact hplain
  | succ levels =>
    rw [runner, runLine_some]
    cases hx : expansionOf? line text asm with
    | none => exact hplain
    | some x =>
      obtain ⟨close, hopens, hclose⟩ := asm.opens_of_expansionOf? hx
      have hline := line_runRepeatedly (runner levels) x.file x.start x.stop x.count x.opened
      have hend := congrArg Bearings.line (hclose
        (runRepeatedly (runner levels) x.file x.start x.stop x.count x.opened))
      have hopen : x.opened.state.line = line := by
        show x.opened.state.bearings.line = line
        generalize x.opened.state.bearings = opened at hopens
        cases hopens <;> rfl
      rw [hopen] at hline
      refine Eq.trans hend (Eq.trans ?_ hline)
      generalize x.opened.state.bearings = opened at hopens
      cases hopens <;> rfl

/-! ## Inclusions -/

/-- What an included file does to the extensions is undone at its end. -/
theorem extensions_run_ofInclude (asm : Assembler) (e : Expr) (run : LineRunner) :
    ((asm.ofInclude e).run run).state.extensions = asm.state.extensions := by
  unfold ofInclude
  dsimp only
  split
  · rfl
  · rfl

/-- Keywords leave the extensions alone: only directives change them. -/
theorem extensions_keywordBody (asm : Assembler) (keyword : Keyword) (label : Option LabelDef)
    (word : Token) (args : List Expr) :
    (asm.keywordBody none keyword label word args).state.extensions = asm.state.extensions := by
  obtain ⟨n, h⟩ := asm.bearings_keywordBody keyword label word args
  exact congrArg Bearings.extensions h

theorem extensions_includeFile (asm : Assembler) (next : Option LineRunner)
    (label : Option LabelDef) (word : Token) (args : List Expr) :
    (asm.keywordBody next .includeFile label word args).state.extensions =
      asm.state.extensions := by
  cases next with
  | none => exact asm.extensions_keywordBody _ _ _ _
  | some run =>
    rw [keywordBody_some]
    rcases args with _ | ⟨e, _ | ⟨e', rest⟩⟩
    · rfl
    · exact asm.extensions_run_ofInclude e run
    · rfl

end Assembler

/-- Whether a parsed line is an inclusion. -/
def Line.isInclude (line : Line) : Bool :=
  match line.operation with
  | some (.keyword word _) => Keyword.ofWord? word.text == some .includeFile
  | _ => false

namespace Assembler

/-- `INCLUDE` leaves the extensions as they were, at every level. -/
theorem extensions_execute_include (next : Option LineRunner) {line : Line} (asm : Assembler)
    (h : line.isInclude = true) :
    (execute next line asm).state.extensions = asm.state.extensions := by
  unfold Line.isInclude at h
  split at h
  · rename_i word args hop
    have hk : Keyword.ofWord? word.text = some .includeFile := beq_iff_eq.1 h
    have hlabel := congrArg Bearings.extensions (asm.state.bearings_defineLabel? line.label)
    unfold execute
    rw [hop]
    dsimp only [withKeyword]
    rw [hk]
    dsimp only [Keyword.namesLabel]
    split
    · rw [extensions_includeFile]
      exact hlabel
    · exact hlabel
  · exact absurd h (by simp)

/-- An inclusion puts the extensions back, also when the file switched them. -/
theorem extensions_runner {levels line : Nat} {text : String} {asm asm' : Assembler} {parsed : Line}
    (hp : parsed? line text asm = some (parsed, asm')) (hi : parsed.isInclude = true) :
    (runner levels line text asm).state.extensions = asm.state.extensions := by
  have hb := congrArg Bearings.extensions (bearings_of_parsed? hp)
  have hrun : ∀ next, (runLine next line text asm).state.extensions = asm.state.extensions := by
    intro next
    rw [runLine_of_parsed? next hp]
    exact (extensions_execute_include next _ hi).trans hb
  cases levels with
  | zero => exact hrun none
  | succ levels => exact hrun (some (runner levels))

end Assembler

end Sm83Asm
