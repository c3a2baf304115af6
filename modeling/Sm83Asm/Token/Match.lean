import Sm83Asm.Instruction.Table
import Sm83Asm.Numeral
import Sm83Asm.Token
import Sm83Asm.Vocabulary

set_option autoImplicit false

/-!
# Matching tokens

At every place of a line each lexical rule reports how many characters it matches. The longest
match is the next token, and of two equally long ones that of the earlier rule. Strings and
interpolations are found by their delimiters and may hold further matches, which are kept beside
the outer one in the order in which they end.
-/

namespace Sm83Asm

/-- A match inside another one. -/
structure SubMatch where
  kind : TokenKind
  /-- Characters of the line in front of the match. -/
  start : Nat
  length : Nat
deriving DecidableEq, Repr, Inhabited

/-- A match at some place of a line; lengths count characters. -/
structure Match where
  kind : TokenKind
  length : Nat
  /-- Matches inside this one, inner ones first. -/
  subs : List SubMatch := []
deriving DecidableEq, Repr, Inhabited

/-- What the rules know about their surroundings. -/
structure ScanContext where
  /-- The class of the last token that the parser will see. -/
  prev : Option TokenKind := none
  extensions : Bool := true
  options : Options := {}
deriving Inhabited

/-! ## Rules -/

/-- Number of leading characters that satisfy a test. -/
def countWhile (p : Char → Bool) (cs : List Char) : Nat :=
  (cs.takeWhile p).length

/-- The word at the head of a text. -/
def headWord (cs : List Char) : String :=
  String.ofList (cs.takeWhile Text.isWordChar)

/-- Blanks, tabs and carriage returns. -/
def spaceLength (cs : List Char) : Nat :=
  countWhile (fun c => c == ' ' || c == '\t' || c == '\r') cs

/-- A semicolon begins a comment, which takes the rest of the line. -/
def commentLength : List Char → Nat
  | ';' :: cs => cs.length + 1
  | _ => 0

/-- A hash sign and a word. -/
def directiveLength : List Char → Nat
  | '#' :: cs => match countWhile Text.isWordChar cs with
    | 0 => 0
    | n => n + 1
  | _ => 0

/-- Characters that a backslash inside a string protects. -/
def isEscaped (c : Char) : Bool :=
  c == '\\' || c == '"' || c == '\'' || c == ',' || c == '\x7b' || c == '\x7d' || c == 'n' ||
    c == 't' || c == 'r' || c == '0'

/-- Characters that name macro arguments behind a backslash. -/
def isArgumentName (c : Char) : Bool :=
  ('1' ≤ c && c ≤ '9') || c == '#'

/-- A backslash and the name of a macro argument. -/
def macroArgumentLength : List Char → Nat
  | '\\' :: c :: _ => if isArgumentName c then 2 else 0
  | _ => 0

/-- A backslash and an at sign. -/
def uniqueLabelLength : List Char → Nat
  | '\\' :: '@' :: _ => 2
  | _ => 0

/-- Digits and the underscores between them. -/
def digitsLength (isDigit : Char → Bool) (cs : List Char) : Nat :=
  countWhile (fun c => c == '_' || isDigit c) cs

/-- A mark and at least one digit behind it. -/
def markedLength (isDigit : Char → Bool) (cs : List Char) : Nat :=
  match digitsLength isDigit cs with
  | 0 => 0
  | n => n + 1

/-- A decimal number with an optional fraction. -/
def decimalLength (cs : List Char) : Nat :=
  let whole := digitsLength Char.isDigit cs
  match cs.drop whole with
  | '.' :: tail => match digitsLength Char.isDigit tail with
    | 0 => whole
    | n => whole + 1 + n
  | _ => whole

/-- A numeric literal. Behind a value, `%` and `&` are operators. -/
def numberLength (ctx : ScanContext) : List Char → Nat
  | [] => 0
  | c :: cs =>
    let afterValue := ctx.prev.any TokenKind.endsValue
    if c == '$' then markedLength (fun c => (Numeral.digitOf? 16 c).isSome) cs
    else if c == '%' && !afterValue then markedLength ctx.options.binaryList.contains cs
    else if c == '&' && !afterValue then markedLength (fun c => (Numeral.digitOf? 8 c).isSome) cs
    else if c == Numeral.backQuote then markedLength ctx.options.pixelList.contains cs
    else if c.isDigit then decimalLength (c :: cs)
    else 0

/-- A keyword that the context allows. -/
def keywordLength (ctx : ScanContext) (cs : List Char) : Nat :=
  match Keyword.ofWord? (headWord cs) with
  | some keyword =>
    if ctx.extensions || !keyword.isExtension then countWhile Text.isWordChar cs else 0
  | none => 0

/-- A mnemonic. -/
def opcodeLength (cs : List Char) : Nat :=
  if isMnemonic (headWord cs) then countWhile Text.isWordChar cs else 0

/-- Whether a text goes on with a sign and then, after blanks, a closing bracket. -/
def closesStep : List Char → Bool
  | c :: cs => (c == '+' || c == '-') && (Text.trimStart cs).head? == some ']'
  | [] => false

/-- An identifier, or a lone at sign. In brackets, `hl+` and `hl-` are registers. -/
def identifierLength : List Char → Nat
  | [] => 0
  | c :: cs =>
    if c == '@' then if cs.head?.any Text.isIdentChar then 0 else 1
    else if c.isAlpha || c == '_' || c == '.' then
      let name := (c :: cs).takeWhile Text.isIdentChar
      let length := name.length
      if Text.sameWord (String.ofList name) "hl" && closesStep ((c :: cs).drop length) then
        length + 1
      else length
    else 0

/-- Operators of two characters. -/
def digraphs : List (List Char) :=
  [['<', '<'], ['>', '>'], ['<', '='], ['>', '='], ['=', '='], ['!', '='], ['&', '&'], ['|', '|']]

/-- Operators of one character. -/
def operatorChars : List Char :=
  ['+', '-', '*', '/', '%', '&', '|', '^', '~', '!', '<', '>', '=']

/-- An operator. -/
def operatorLength (cs : List Char) : Nat :=
  if digraphs.any (·.isPrefixOf cs) then 2
  else if cs.head?.any operatorChars.contains then 1
  else 0

/-- A fixed spelling. -/
def literalLength (spelling cs : List Char) : Nat :=
  if spelling.isPrefixOf cs then spelling.length else 0

/-! ## Delimiters -/

/-- What can hold further matches. -/
inductive Delimiter where
  | string
  | interpolation
deriving DecidableEq, Repr

namespace Delimiter

/-- The character that ends the contents. -/
def closing : Delimiter → Char
  | .string => '"'
  | .interpolation => '\x7d'

/-- The class of plain text between the delimiters. -/
def textKind : Delimiter → TokenKind
  | .string => .stringText
  | .interpolation => .interpolationText

/-- Characters that end a run of plain text. -/
def endsText (d : Delimiter) (c : Char) : Bool :=
  c == '\\' || c == '\x7b' || c == d.closing

end Delimiter

/-- A run of plain text between delimiters. -/
def plainText (d : Delimiter) (cs : List Char) : Option Match :=
  match countWhile (fun c => !d.endsText c) cs with
  | 0 => none
  | n => some { kind := d.textKind, length := n }

/-- A backslash and the character behind it, between delimiters. -/
def backslashed (d : Delimiter) (c : Char) : Option Match :=
  if d == .string && isEscaped c then some { kind := .escape, length := 2 }
  else if isArgumentName c then some { kind := .macroArgument, length := 2 }
  else if c == '@' then some { kind := .uniqueLabel, length := 2 }
  else none

mutual

/-- The match at the head of `cs` between delimiters, `pos` characters into the line. -/
def nested (d : Delimiter) (pos : Nat) (cs : List Char) : Option Match :=
  match cs with
  | [] => none
  | c :: rest =>
    if c == '\x7b' then
      match contents .interpolation (pos + 1) rest with
      | some (n, subs) => some { kind := .interpolation, length := n + 1, subs }
      | none => none
    else if c == '\\' then
      match rest with
      | e :: _ => backslashed d e
      | [] => none
    else plainText d (c :: rest)
termination_by 2 * cs.length

/-- Length of the contents behind an opening delimiter, the closing one included, and the matches
inside. There is none when the closing delimiter is missing. An opening brace that is never closed
inside an interpolation leaves that one unclosed as well. -/
def contents (d : Delimiter) (pos : Nat) (cs : List Char) : Option (Nat × List SubMatch) :=
  match cs with
  | [] => none
  | c :: rest =>
    if c == d.closing then some (1, [])
    else
      match nested d pos (c :: rest) with
      | some m =>
        match contents d (pos + m.length) (rest.drop (m.length - 1)) with
        | some (n, subs) => some (m.length + n, m.subs ++ ⟨m.kind, pos, m.length⟩ :: subs)
        | none => none
      | none =>
        if d == .interpolation && c == '\x7b' then none
        else
          match contents d (pos + 1) rest with
          | some (n, subs) => some (n + 1, subs)
          | none => none
termination_by 2 * cs.length + 1

end

/-- A match that begins with the opening delimiter. -/
def delimited (kind : TokenKind) (opening : Char) (d : Delimiter) (pos : Nat) :
    List Char → Option Match
  | [] => none
  | c :: cs =>
    if c == opening then
      (contents d (pos + 1) cs).map fun (n, subs) => { kind, length := n + 1, subs }
    else none

/-! ## Scanning -/

/-- A match of a class with a length, unless the length is zero. -/
def ofLength (kind : TokenKind) : Nat → Option Match
  | 0 => none
  | n => some { kind, length := n }

/-- What every rule finds at the head of `cs`, `pos` characters into the line, in the order of
the rules. -/
def candidates (ctx : ScanContext) (pos : Nat) (cs : List Char) : List (Option Match) :=
  [ ofLength .space (spaceLength cs),
    ofLength .comment (commentLength cs),
    ofLength .directive (directiveLength cs),
    delimited .string '"' .string pos cs,
    delimited .interpolation '\x7b' .interpolation pos cs,
    ofLength .macroArgument (macroArgumentLength cs),
    ofLength .uniqueLabel (uniqueLabelLength cs),
    ofLength .number (numberLength ctx cs),
    ofLength .keyword (keywordLength ctx cs),
    ofLength .opcode (opcodeLength cs),
    ofLength .identifier (identifierLength cs),
    ofLength .operator (operatorLength cs),
    ofLength .doubleColon (literalLength [':', ':'] cs),
    ofLength .colon (literalLength [':'] cs),
    ofLength .comma (literalLength [','] cs),
    ofLength .openParen (literalLength ['('] cs),
    ofLength .closeParen (literalLength [')'] cs),
    ofLength .openBracket (literalLength ['['] cs),
    ofLength .closeBracket (literalLength [']'] cs) ]

/-- The longer of two matches, and of equally long ones the first. -/
def longer : Option Match → Option Match → Option Match
  | best, none => best
  | none, found => found
  | some best, some found => if best.length < found.length then some found else some best

/-- The longest match at the head of `cs`. -/
def scanTop (ctx : ScanContext) (pos : Nat) (cs : List Char) : Option Match :=
  (candidates ctx pos cs).foldl longer none

/-- The match at the head of `cs`, at the top of a line or inside a match of some class. -/
def scan (ctx : ScanContext) (inside : Option TokenKind) (pos : Nat) (cs : List Char) :
    Option Match :=
  match inside with
  | none => scanTop ctx pos cs
  | some .string => nested .string pos cs
  | some .interpolation => nested .interpolation pos cs
  | some _ => none

end Sm83Asm
