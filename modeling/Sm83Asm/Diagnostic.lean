import Sm83Asm.Numeral
import Sm83Asm.Token
import Sm83Asm.Vocabulary

set_option autoImplicit false

/-!
# Diagnostics

What can go wrong on a line is an inductive type of causes, one for each stage of the work on a
line. The wording of a cause is in its `message` and nowhere else. A `Report` is a cause at a
token; a `Diagnostic` is a report at a place in a file.
-/

namespace Sm83Asm

/-! ## Causes -/

/-- Why a macro argument, a unique suffix or an interpolation cannot be replaced by its text. -/
inductive SubstitutionError where
  /-- A macro argument outside of any macro. -/
  | outsideMacro (spelling : String)
  /-- A macro argument that the call does not supply. -/
  | missingArgument (spelling : String)
  /-- A unique suffix outside of macros and repeats. -/
  | outsideExpansion
  /-- An interpolated name without a value. -/
  | undefinedName (name : String)
  /-- A format that does not fit the interpolated value. -/
  | invalidFormat (format : String)
deriving DecidableEq, Repr

/-- The wording of a substitution error. -/
def SubstitutionError.message : SubstitutionError → String
  | .outsideMacro spelling => s!"`{spelling}` used outside of a macro"
  | .missingArgument spelling => s!"macro argument `{spelling}` is not defined"
  | .outsideExpansion => "`\\@` used outside of a macro or REPT block"
  | .undefinedName name => s!"interpolated symbol `{name}` is not defined"
  | .invalidFormat format => s!"invalid interpolation format `{format}`"

/-- What can go wrong while a line is cut into tokens. -/
inductive LexicalCause where
  | substitution (error : SubstitutionError)
  /-- Text of the line was replaced as often as is allowed. -/
  | substitutionLimit (count : Nat)
deriving DecidableEq, Repr

/-- The wording of a lexical cause. -/
def LexicalCause.message : LexicalCause → String
  | .substitution error => error.message
  | .substitutionLimit count => s!"substitution limit of {count} reached"

/-- What can go wrong while tokens are parsed. -/
inductive GrammarCause where
  | expected (kind : TokenKind) (found : Token)
  | unexpected (found : Token)
  | unexpectedEnd
  | notCallable
deriving DecidableEq, Repr

/-- The wording of a grammatical cause. -/
def GrammarCause.message : GrammarCause → String
  | .expected kind found =>
    let (wanted, got) := (kind.describe, found.describe)
    s!"expected {wanted}, found {got}"
  | .unexpected found => "unexpected " ++ found.describe
  | .unexpectedEnd => "unexpected end of line"
  | .notCallable => "only functions can be called"

/-- Blocks that a file has to close. -/
inductive Block where
  | conditional
  | macroBody
  | repetition
  | union
deriving DecidableEq, Repr

/-- The keyword that opens a block. -/
def Block.opener : Block → Keyword
  | .conditional => .ifTrue
  | .macroBody => .macroStart
  | .repetition => .rept
  | .union => .union

/-- What can go wrong while a parsed line is carried out. -/
inductive EvaluationCause where
  -- expressions
  | undefined (name : String)
  | notConstant
  | labelNotConstant (name : String)
  | stringExpected
  | notANumber (text : String)
  | invalidNumber (text : String)
  | divisionByZero
  | substitution (error : SubstitutionError)
  | unsettledString (passes : Nat)
  | unknownFunction (name : String)
  | functionArity (function : Function)
  | onlyAtLinkTime (function : Function)
  -- deferred expressions
  | locationOutsideSection
  | localOutsideGlobal (name : String)
  | notAtLinkTime (function : Function)
  | stringNotConstant
  | deferredOutsideSection
  -- instructions
  | instructionOutsideSection
  | noVariant (mnemonic : String)
  | tooWide (value : Int32) (bits : Nat)
  | jumpTooFar (distance : Int32)
  -- labels and symbols
  | labelOutsideSection
  | localLabelOutsideGlobal (name : String)
  | alreadyDefined (name : String)
  | nameRequired (keyword : Keyword)
  | reassignedConstant (name : String)
  | symbolNameExpected (found : Token)
  | referencedLabel (name : String)
  | neverDefined (name : String)
  -- keywords
  | unknownDirective (text : String)
  | unknownKeyword (text : String)
  | keywordArity (keyword : Keyword)
  | unopened (closer opener : Keyword)
  | unterminated (block : Block)
  | outsideSection (keyword : Keyword)
  | emptyCharmapKey
  | charmapTooWide (value : Int32)
  | negativeShift (count : Int32)
  | shiftOutsideMacro
  | negativeRepeat (count : Int32)
  | cannotReserve (count : Int32)
  | fillTooWide (value : Int32)
  | invalidOption (text : String)
  -- macros and files
  | macroNameRequired
  | unknownMacro (name : String)
  | tooDeep (limit : Nat)
  | sourceUnavailable (file : String)
  | missingFile (path : String)
  | outsideFile (first past : Nat) (path : String) (size : Nat)
  -- sections
  | unknownRegion (name : String)
  | addressOutsideRegion (address : Int32) (region : Region)
  | attributeExpected (found : Token)
  | notBanked (region : Region)
  | bankOutsideRegion (bank : Int32) (region : Region)
  | invalidAlignment (value : Int32)
  | sectionRedeclared (name : String)
  -- messages of the source itself
  | userWarning (text : String)
  | userFailure (text : String)
deriving DecidableEq, Repr

/-- The wording of an evaluation cause. -/
def EvaluationCause.message : EvaluationCause → String
  | .undefined name => s!"`{name}` is not defined"
  | .notConstant => "expression must be constant"
  | .labelNotConstant name => s!"label `{name}` is not constant"
  | .stringExpected => "expected a string"
  | .notANumber text => s!"string `{text}` cannot be used as a number"
  | .invalidNumber text => s!"invalid number `{text}`"
  | .divisionByZero => "division by zero"
  | .substitution error => error.message
  | .unsettledString passes => s!"string expansion did not settle after {passes} passes"
  | .unknownFunction name => s!"unknown function `{name}`"
  | .functionArity function =>
    let (name, count) := (function.name, function.arity.describe)
    s!"`{name}` expects {count} arguments"
  | .onlyAtLinkTime function => s!"`{function.name}` is only known at link time"
  | .locationOutsideSection => "`@` used outside of a section"
  | .localOutsideGlobal name => s!"local label `{name}` used outside of a global label"
  | .notAtLinkTime function => s!"`{function.name}` cannot be evaluated at link time"
  | .stringNotConstant => "string expressions must be constant"
  | .deferredOutsideSection => "non-constant expressions must be placed within sections"
  | .instructionOutsideSection => "instructions must be placed within sections"
  | .noVariant mnemonic => s!"no variant of `{mnemonic}` matches these operands"
  | .tooWide value bits =>
    let number := Numeral.decimal value
    s!"value {number} does not fit in {bits} bits"
  | .jumpTooFar distance =>
    let number := Numeral.decimal distance
    s!"jump target is {number} bytes away, out of `jr` range"
  | .labelOutsideSection => "labels must be placed within sections"
  | .localLabelOutsideGlobal name => s!"local label `{name}` is outside of a global label"
  | .alreadyDefined name => s!"`{name}` is already defined"
  | .nameRequired keyword => s!"`{keyword.name}` requires a symbol name"
  | .reassignedConstant name => s!"`{name}` is a constant and cannot be reassigned"
  | .symbolNameExpected found => "expected a symbol name, found " ++ found.describe
  | .referencedLabel name => s!"label `{name}` is referenced and cannot be purged"
  | .neverDefined name => s!"exported symbol `{name}` is never defined"
  | .unknownDirective text => s!"unknown directive `{text}`"
  | .unknownKeyword text => s!"unknown keyword `{text}`"
  | .keywordArity keyword =>
    let (name, count) := (keyword.name, keyword.arity.describe)
    s!"`{name}` expects {count} arguments"
  | .unopened closer opener =>
    let (last, first) := (closer.name, opener.name)
    s!"`{last}` without `{first}`"
  | .unterminated block =>
    let opener := block.opener.name
    s!"unterminated {opener} block"
  | .outsideSection keyword => s!"`{keyword.name}` must be placed within a section"
  | .emptyCharmapKey => "charmap entries cannot be empty"
  | .charmapTooWide value =>
    let number := Numeral.decimal value
    s!"charmap value {number} does not fit in 8 bits"
  | .negativeShift count => "cannot shift by " ++ Numeral.decimal count
  | .shiftOutsideMacro => "`SHIFT` used outside of a macro"
  | .negativeRepeat count =>
    let number := Numeral.decimal count
    s!"cannot repeat {number} times"
  | .cannotReserve count =>
    let number := Numeral.decimal count
    s!"cannot reserve {number} bytes"
  | .fillTooWide value =>
    let number := Numeral.decimal value
    s!"fill value {number} does not fit in 8 bits"
  | .invalidOption text => s!"invalid option `{text}`"
  | .macroNameRequired => "`MACRO` requires a name"
  | .unknownMacro name => s!"macro `{name}` is not defined"
  | .tooDeep limit => s!"expansion depth of {limit} exceeded"
  | .sourceUnavailable file => s!"source of `{file}` is not available"
  | .missingFile path => s!"cant find file `{path}`"
  | .outsideFile first past path size =>
    s!"range {first}..{past} is outside of `{path}` ({size} bytes)"
  | .unknownRegion name => s!"unknown memory region `{name}`"
  | .addressOutsideRegion address region =>
    let (digits, place) := (Numeral.padTo 4 (Numeral.hexUpper address), region.name)
    s!"address ${digits} is outside of {place}"
  | .attributeExpected found => "expected `BANK[n]` or `ALIGN[n]`, found " ++ found.describe
  | .notBanked region => region.name ++ " is not banked"
  | .bankOutsideRegion bank region =>
    let (number, place) := (Numeral.decimal bank, region.name)
    s!"bank {number} is outside of {place}"
  | .invalidAlignment value =>
    let number := Numeral.decimal value
    s!"alignment {number} must be 0 to 16"
  | .sectionRedeclared name => s!"section `{name}` is redeclared with different attributes"
  | .userWarning text => text
  | .userFailure text => text

/-- What went wrong, by stage. -/
inductive Cause where
  | lexical (cause : LexicalCause)
  | grammar (cause : GrammarCause)
  | evaluation (cause : EvaluationCause)
deriving DecidableEq, Repr

/-! ## Reports and diagnostics -/

/-- The stage that found the cause. -/
inductive Stage where
  | lexer
  | parser
  | evaluator
deriving DecidableEq, Repr

/-- The name of a stage in a diagnostic. -/
def Stage.name : Stage → String
  | .lexer => "Lexer"
  | .parser => "Parser"
  | .evaluator => "Evaluator"

/-- How serious a diagnostic is. -/
inductive Severity where
  | error
  | warning
deriving DecidableEq, Repr

namespace Cause

/-- The stage that a cause belongs to. -/
def stage : Cause → Stage
  | .lexical _ => .lexer
  | .grammar _ => .parser
  | .evaluation _ => .evaluator

/-- The wording of a cause. -/
def message : Cause → String
  | .lexical cause => cause.message
  | .grammar cause => cause.message
  | .evaluation cause => cause.message

/-- Warnings are what the source asks for and exports that nothing defines; all else is an
error. -/
def severity : Cause → Severity
  | .evaluation (.userWarning _) | .evaluation (.neverDefined _) => .warning
  | _ => .error

end Cause

/-- A cause and the token at which it was found. -/
structure Report where
  cause : Cause
  token : Option Token
deriving DecidableEq, Repr

namespace Report

/-- A report of the lexer. -/
def lexical (cause : LexicalCause) (token : Token) : Report := ⟨.lexical cause, some token⟩

/-- A report of the parser. -/
def grammar (cause : GrammarCause) (token : Token) : Report := ⟨.grammar cause, some token⟩

/-- A report of the evaluator. -/
def evaluation (cause : EvaluationCause) (token : Token) : Report := ⟨.evaluation cause, some token⟩

end Report

/-- A report and the place where it was made. -/
structure Diagnostic where
  report : Report
  file : String
  line : Nat
deriving DecidableEq, Repr

namespace Diagnostic

/-- Whether the diagnostic spoils the result. -/
def isError (d : Diagnostic) : Bool := d.report.cause.severity == .error

/-- Column for readers, from one. -/
def column (d : Diagnostic) : Nat :=
  match d.report.token with
  | some token => token.column + 1
  | none => 1

/-- The diagnostic as one line of text. -/
def render (d : Diagnostic) : String :=
  let (stage, message) := (d.report.cause.stage.name, d.report.cause.message)
  s!"{d.file}:{d.line}:{d.column}: [{stage}] {message}"

end Diagnostic

end Sm83Asm
