import Sm83Asm.Text.Basic

set_option autoImplicit false

/-!
# Tokens

A token is a piece of a source line together with its lexical class and its place. Columns count
bytes from the start of the line.
-/

namespace Sm83Asm

/-- Lexical classes. -/
inductive TokenKind where
  | startOfLine
  | space
  | comment
  | directive
  | keyword
  | opcode
  | macroCall
  | label
  | identifier
  | number
  | string
  | stringText
  | escape
  | macroArgument
  | uniqueLabel
  | interpolation
  | interpolationText
  | operator
  | comma
  | openParen
  | closeParen
  | openBracket
  | closeBracket
  | colon
  | doubleColon
  | unknown
  | endOfLine
deriving DecidableEq, Repr, Inhabited

namespace TokenKind

/-- Every class, in declaration order. -/
def all : List TokenKind :=
  [.startOfLine, .space, .comment, .directive, .keyword, .opcode, .macroCall, .label, .identifier,
    .number, .string, .stringText, .escape, .macroArgument, .uniqueLabel, .interpolation,
    .interpolationText, .operator, .comma, .openParen, .closeParen, .openBracket, .closeBracket,
    .colon, .doubleColon, .unknown, .endOfLine]

/-- Classes that the parser never sees. -/
def isTrivia : TokenKind → Bool
  | .space | .escape | .interpolation | .interpolationText | .macroArgument | .uniqueLabel => true
  | _ => false

/-- Classes that complete a value, so that a following `%` or `&` is an operator and begins no
number. -/
def endsValue : TokenKind → Bool
  | .identifier | .label | .number | .string | .closeParen | .closeBracket => true
  | _ => false

/-- The words for a class in messages. -/
def describe : TokenKind → String
  | .startOfLine => "start of line"
  | .space => "space"
  | .comment => "comment"
  | .directive => "directive"
  | .keyword => "keyword"
  | .opcode => "opcode"
  | .macroCall => "macro call"
  | .label => "label"
  | .identifier => "identifier"
  | .number => "number"
  | .string => "string"
  | .stringText => "string text"
  | .escape => "escape"
  | .macroArgument => "macro argument"
  | .uniqueLabel => "unique label"
  | .interpolation => "interpolation"
  | .interpolationText => "interpolation text"
  | .operator => "operator"
  | .comma => "`,`"
  | .openParen => "`(`"
  | .closeParen => "`)`"
  | .openBracket => "`[`"
  | .closeBracket => "`]`"
  | .colon => "`:`"
  | .doubleColon => "`::`"
  | .unknown => "unknown"
  | .endOfLine => "end of line"

end TokenKind

/-- A piece of a source line. -/
structure Token where
  kind : TokenKind
  text : String
  /-- Line number, from one. -/
  line : Nat
  /-- Bytes of the line in front of the token. -/
  column : Nat
deriving DecidableEq, Repr, Inhabited

namespace Token

/-- The empty token at the start of a line. -/
def start (line : Nat) : Token := ⟨.startOfLine, "", line, 0⟩

/-- Whether the token spells a word, up to the case of letters. -/
def isWord (t : Token) (word : String) : Bool := Text.sameWord t.text word

/-- The column just after the token. -/
def finish (t : Token) : Nat := t.column + t.text.utf8ByteSize

/-- The token in messages: its class and its text. -/
def describe (t : Token) : String := t.kind.describe ++ " `" ++ t.text ++ "`"

end Token

end Sm83Asm
