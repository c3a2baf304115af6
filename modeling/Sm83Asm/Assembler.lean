import Sm83Asm.Execute.Blocks
import Sm83Asm.Execute.Data
import Sm83Asm.Execute.Names
import Sm83Asm.Execute.Sections
import Sm83Asm.Execute.Settings
import Sm83Asm.Files
import Sm83Asm.Instruction.Encode
import Sm83Asm.Line.Parser
import Sm83Asm.Object
import Sm83Asm.Text.Basic
import Sm83Asm.Token.Stream

set_option autoImplicit false

/-!
# The assembler

A line is cut into tokens, parsed and carried out. Macro calls, the ends of repeats and included
files carry out further lines, one level deeper; the number of levels that are left bounds the
recursion, and at level zero such a line is an error.
-/

namespace Sm83Asm

/-- A state, the files it can include and the lines of those that were read. -/
structure Assembler where
  state : State
  files : FileStore
  /-- The lines of every file read so far, from which macros and repeats are carried out. -/
  sources : Table (List String) := {}

namespace Assembler

/-- The assembler that a run starts from. -/
def new (config : Config) (files : FileStore) : Assembler :=
  { state := .ofConfig config, files }

/-- Changes the state. -/
def mapState (asm : Assembler) (f : State → State) : Assembler :=
  { asm with state := f asm.state }

/-- Adds an error of the evaluator. -/
def fault (asm : Assembler) (cause : EvaluationCause) (token : Token) : Assembler :=
  asm.mapState (·.fault cause token)

/-- Remembers the lines of a file. -/
def load (asm : Assembler) (name : String) (text : String) : Assembler :=
  { asm with sources := asm.sources.insert name (Text.lines text) }

/-! ## Ranges of lines -/

/-- Carries out a line with its number. -/
abbrev LineRunner := Nat → String → Assembler → Assembler

/-- Carries out lines that are numbered from `line` on. -/
def runNumbered (run : LineRunner) : Nat → List String → Assembler → Assembler
  | _, [], asm => asm
  | line, text :: rest, asm => runNumbered run (line + 1) rest (run line text asm)

/-- Carries out the lines of a file behind the first `start` up to line number `stop`, and goes
back to the current place. -/
def runLines (run : LineRunner) (file : String) (start stop : Nat) (asm : Assembler) : Assembler :=
  match asm.sources.get? file with
  | none => asm.fault (.sourceUnavailable file) (.start asm.state.line)
  | some lines =>
    let (savedFile, savedLine) := (asm.state.file, asm.state.line)
    let asm := asm.mapState fun st => { st with file }
    let asm := runNumbered run (start + 1) ((lines.drop start).take (stop - start)) asm
    asm.mapState fun st => { st with file := savedFile, line := savedLine }

/-- Carries out a whole file. The extensions start as configured and are put back afterwards. -/
def runFile (run : LineRunner) (name : String) (asm : Assembler) : Assembler :=
  let saved := asm.state.extensions
  let count := ((asm.sources.get? name).map List.length).getD 0
  let asm := asm.mapState fun st => { st with extensions := !st.config.compatibility }
  let asm := runLines run name 0 count asm
  asm.mapState fun st => { st with extensions := saved }

/-- Carries out the lines of a file a number of times. -/
def runRepeatedly (run : LineRunner) (file : String) (start stop : Nat) :
    Nat → Assembler → Assembler
  | 0, asm => asm
  | n + 1, asm => runRepeatedly run file start stop n (runLines run file start stop asm)

/-! ## Going deeper -/

/-- Goes on with the runner one level deeper; without one the limit is reached. -/
def deeper (asm : Assembler) (next : Option LineRunner) (word : Token)
    (k : LineRunner → Assembler) : Assembler :=
  match next with
  | none => asm.fault (.tooDeep asm.state.config.maxDepth) word
  | some run => k run

/-- Gives the next number to an expansion. -/
def beginExpansion (asm : Assembler) : Assembler :=
  asm.mapState fun st =>
    let id := st.expansions + 1
    { st with expansions := id, uniqueIds := id :: st.uniqueIds }

/-- Ends an expansion. -/
def endExpansion (asm : Assembler) : Assembler :=
  asm.mapState fun st => { st with uniqueIds := st.uniqueIds.tail }

/-- A macro call. -/
def callMacro (asm : Assembler) (next : Option LineRunner) (name : Token) (args : List Token) :
    Assembler :=
  match asm.state.macros.get? name.text with
  | none => asm.fault (.unknownMacro name.text) name
  | some body =>
    asm.deeper next name fun run =>
      let frame : MacroFrame := { name := name.text, args := args.map Token.text }
      let asm := asm.beginExpansion.mapState fun st => { st with frames := frame :: st.frames }
      let asm := runLines run body.file body.startLine (body.endLine - 1) asm
      (asm.mapState fun st => { st with frames := st.frames.tail }).endExpansion

/-- `ENDR`: carries out the body of the outermost repeat. -/
def endRepeat (asm : Assembler) (next : Option LineRunner) (word : Token) : Assembler :=
  match asm.state.repeats with
  | [] => asm.fault (.unopened .endr .rept) word
  | _ :: outer :: rest => asm.mapState fun st => { st with repeats := outer :: rest }
  | [block] =>
    let asm := asm.mapState fun st => { st with repeats := [] }
    asm.deeper next word fun run =>
      let stop := asm.state.line - 1
      (runRepeatedly run block.file block.line stop block.count asm.beginExpansion).endExpansion

/-- `INCLUDE`. -/
def includeFile (asm : Assembler) (next : Option LineRunner) (word : Token) (e : Expr) :
    Assembler :=
  let (path, st) := asm.state.text e
  let asm := { asm with state := st }
  asm.deeper next word fun run =>
    match asm.files.retrieve path asm.state.file with
    | (none, files) => { asm with files }.fault (.missingFile path) e.token
    | (some (name, contents), files) =>
      runFile run name ({ asm with files }.load name (Text.decode contents.toList))

/-- `INCBIN`: puts the bytes of a file, or a range of them, into the open section. -/
def includeBytes (asm : Assembler) (word : Token) (e : Expr) (start length : Option Expr) :
    Assembler :=
  match asm.state.section? with
  | none => asm.fault (.outsideSection .incbin) word
  | some _ =>
    let (path, st) := asm.state.text e
    let (first, st) := st.numberD 0 start
    let (count, st) := st.numberD 0 length
    let asm := { asm with state := st }
    match asm.files.retrieve path asm.state.file with
    | (none, files) => { asm with files }.fault (.missingFile path) e.token
    | (some (_, contents), files) =>
      let asm := { asm with files }
      let first := first.toInt.toNat
      let past := if length.isSome then first + count.toInt.toNat else max contents.size first
      if past ≤ contents.size then asm.mapState (·.emit (contents.extract first past))
      else asm.fault (.outsideFile first past path contents.size) word

/-! ## Keywords -/

/-- Carries out a keyword with the right number of arguments. The label in front is the symbol
that the keyword defines, if it defines one. -/
def keywordBody (asm : Assembler) (next : Option LineRunner) (keyword : Keyword)
    (label : Option LabelDef) (word : Token) (args : List Expr) : Assembler :=
  match keyword, args with
  | .db, _ | .dw, _ | .dl, _ => asm.mapState (·.data keyword word args)
  | .ds, count :: fill => asm.mapState (·.reserve word count fill.head?)
  | .equ, [e] => asm.mapState (·.equ label word e)
  | .equs, [e] => asm.mapState (·.equs label word e)
  | .set, [e] => asm.mapState (·.assign label word e)
  | .rb, _ | .rw, _ | .rl, _ => asm.mapState (·.field keyword label word args.head?)
  | .rsreset, _ => asm.mapState fun st => { st with fieldOffset := 0 }
  | .rsset, [e] => asm.mapState fun st =>
    let (n, st) := st.number e
    { st with fieldOffset := n }
  | .charmap, [key, value] => asm.mapState (·.mapText key value)
  | .ifTrue, _ => asm.mapState (·.beginIf word args)
  | .elseIf, _ => asm.mapState (·.nextIf word args)
  | .elseAll, _ => asm.mapState (·.lastIf word)
  | .endIf, _ => asm.mapState (·.endIf word)
  | .macroStart, _ => asm.mapState (·.beginMacro label word args)
  | .macroEnd, _ => asm.mapState (·.endMacro word)
  | .shift, _ => asm.mapState (·.shift word args.head?)
  | .rept, _ => asm.mapState (·.beginRepeat word args)
  | .endr, _ => asm.endRepeat next word
  | .union, _ => asm.mapState (·.beginUnion word)
  | .nextu, _ => asm.mapState (·.nextMember word)
  | .endu, _ => asm.mapState (·.endUnion word)
  | .includeFile, [e] => asm.includeFile next word e
  | .incbin, e :: range => asm.includeBytes word e range[0]? range[1]?
  | .exportName, _ | .globalName, _ => asm.mapState (·.exportAll args)
  | .purge, _ => asm.mapState (·.purge args)
  | .sectionStart, name :: kind :: attrs => asm.mapState (·.beginSection name kind attrs)
  | .pushs, _ => asm.mapState State.pushSection
  | .pops, _ => asm.mapState (·.popSection word)
  | .popo, _ => asm.mapState (·.popOptions word)
  | .warn, [e] | .fail, [e] => asm.mapState (·.userMessage keyword word e)
  | .printt, [e] | .printv, [e] | .printi, [e] | .printf, [e] =>
    asm.mapState (·.printValue keyword e)
  | .reseed, [e] => asm.mapState (·.reseed e)
  | _, _ => asm

/-- Carries out `OPT` or `PUSHO` with the right number of arguments. -/
def optionBody (asm : Assembler) (keyword : Keyword) (args : List Token) : Assembler :=
  match keyword with
  | .pusho => asm.mapState (·.pushOptions args)
  | _ => asm.mapState (·.changeOptions args)

/-- Defines the label in front of a keyword, unless it is the symbol that the keyword defines, and
goes on when the number of arguments is right. -/
def withKeyword (asm : Assembler) (label : Option LabelDef) (word : Token) (count : Nat)
    (k : Keyword → Assembler → Assembler) : Assembler :=
  match Keyword.ofWord? word.text with
  | none => asm.fault (.unknownKeyword word.text) word
  | some keyword =>
    let asm := if keyword.namesLabel then asm else asm.mapState (·.defineLabel? label)
    if keyword.checksOwnArity || keyword.arity.accepts count then k keyword asm
    else asm.fault (.keywordArity keyword) word

/-! ## Lines -/

/-- A directive turns the extensions on or off. -/
def directive (asm : Assembler) (word : Token) : Assembler :=
  match Text.upper word.text with
  | "#EXTENSIONS" => asm.mapState fun st => { st with extensions := true }
  | "#RGBDS" => asm.mapState fun st => { st with extensions := false }
  | _ => asm.fault (.unknownDirective word.text) word

/-- An instruction. -/
def instruction (asm : Assembler) (label : Option LabelDef) (word : Token) (args : List Expr) :
    Assembler :=
  asm.mapState fun st =>
    match st.section? with
    | none => st.fault .instructionOutsideSection word
    | some _ =>
      let st := st.defineLabel? label
      match st.emitting (st.scope.encode word args) with
      | (some bytes, st) => st.emit bytes.toArray
      | (none, st) => st

/-- Carries out a parsed line. -/
def execute (next : Option LineRunner) (line : Line) (asm : Assembler) : Assembler :=
  match line.operation with
  | none => asm.mapState (·.defineLabel? line.label)
  | some (.directive word _) => asm.directive word
  | some (.assign word e) => asm.mapState (·.assign line.label word e)
  | some (.keyword word args) =>
    asm.withKeyword line.label word args.length fun keyword asm =>
      asm.keywordBody next keyword line.label word args
  | some (.options word args) =>
    asm.withKeyword line.label word args.length fun keyword asm => asm.optionBody keyword args
  | some (.opcode word args) => asm.instruction line.label word args
  | some (.macroCall name args) =>
    (asm.mapState (·.defineLabel? line.label)).callMacro next name args

/-- What a line of text asks for. Parsing in full may add reports. -/
def statement (line : Nat) (text : String) (st : State) : Statement × State :=
  let cs := text.toList
  match st.passOver? (st.rawTokens line cs) with
  | some statement => (statement, st)
  | none =>
    let (tokens, lexical) := st.tokenize line cs
    let (statement, grammar) := parseLine tokens
    (statement, (st.record lexical).record grammar)

/-- Carries out a line of text, given a runner for the lines one level deeper. -/
def runLine (next : Option LineRunner) (line : Nat) (text : String) (asm : Assembler) :
    Assembler :=
  let (statement, st) := statement line text { asm.state with line }
  let asm := { asm with state := st }
  match statement with
  | .line parsed => asm.execute next parsed
  | .ignored _ | .invalid _ => asm

/-- Carries out a line of text with a number of levels left to go deeper. -/
def runner : Nat → LineRunner
  | 0 => runLine none
  | levels + 1 => runLine (some (runner levels))

/-! ## Whole assemblies -/

/-- Carries out one line at the top level. -/
def assembleLine (asm : Assembler) (line : Nat) (text : String) : Assembler :=
  runner asm.state.config.maxDepth line text asm

/-- Carries out a text as if it were a file. -/
def assembleText (asm : Assembler) (name text : String) : Assembler :=
  runFile (runner asm.state.config.maxDepth) name (asm.load name text)

/-- Carries out a file; there is no result when it cannot be found. -/
def assembleFile? (asm : Assembler) (path : String) : Option Assembler :=
  match asm.files.retrieve path "" with
  | (none, _) => none
  | (some (name, contents), files) =>
    some ({ asm with files }.assembleText name (Text.decode contents.toList))

/-- Blocks that are still open at the end. -/
def openBlocks (st : State) : List Block :=
  (if st.conditionals.isEmpty then [] else [.conditional]) ++
  (if st.macroDefs.isEmpty then [] else [.macroBody]) ++
  (if st.repeats.isEmpty then [] else [.repetition]) ++
  (if st.unions.isEmpty then [] else [.union])

/-- The final reports: blocks that are still open, and exported names that nothing defines. -/
def finalReports (st : State) : List Report :=
  (openBlocks st).map (fun block => ⟨.evaluation (.unterminated block), none⟩) ++
  st.pendingExports.map fun name => ⟨.evaluation (.neverDefined name), none⟩

/-- The state at the end of an assembly. -/
def finalState (st : State) : State :=
  ({ st.record (finalReports st) with pendingExports := [] }.closeLabel).syncSymbols

/-- The result of an assembly. -/
def finish (asm : Assembler) : Object :=
  let st := finalState asm.state
  { sections := st.sections.values
    symbols := st.symbols.values
    patches := st.patches.toList
    diagnostics := st.diagnostics.toList
    printed := st.printed }

/-- The result of an assembly where arithmetic is checked; there is none after an overflow. -/
def finish? (asm : Assembler) : Option Object :=
  if asm.state.overflowed then none else some asm.finish

end Assembler

end Sm83Asm
