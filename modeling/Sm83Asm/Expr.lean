import Sm83Asm.Token

set_option autoImplicit false

/-!
# Expressions

Operators, expression trees and the precedence that ties them to their spelling. Every node keeps
the token it was read from, so that reports can point at it.
-/

namespace Sm83Asm

/-! ## Operators -/

/-- Operators in front of their operand. -/
inductive UnaryOp where
  | neg
  | plus
  | not
  | complement
deriving DecidableEq, Repr, Inhabited

namespace UnaryOp

/-- The spelling of an operator. -/
def symbol : UnaryOp → String
  | .neg => "-"
  | .plus => "+"
  | .not => "!"
  | .complement => "~"

/-- The operator with a spelling. -/
def ofSymbol? : String → Option UnaryOp
  | "-" => some .neg
  | "+" => some .plus
  | "!" => some .not
  | "~" => some .complement
  | _ => none

end UnaryOp

/-- Operators between two operands. -/
inductive BinaryOp where
  | logicalOr
  | logicalAnd
  | equal
  | notEqual
  | less
  | greater
  | lessEqual
  | greaterEqual
  | add
  | sub
  | bitAnd
  | bitOr
  | bitXor
  | shiftLeft
  | shiftRight
  | mul
  | div
  | mod
deriving DecidableEq, Repr, Inhabited

namespace BinaryOp

/-- The spelling of an operator. -/
def symbol : BinaryOp → String
  | .logicalOr => "||"
  | .logicalAnd => "&&"
  | .equal => "=="
  | .notEqual => "!="
  | .less => "<"
  | .greater => ">"
  | .lessEqual => "<="
  | .greaterEqual => ">="
  | .add => "+"
  | .sub => "-"
  | .bitAnd => "&"
  | .bitOr => "|"
  | .bitXor => "^"
  | .shiftLeft => "<<"
  | .shiftRight => ">>"
  | .mul => "*"
  | .div => "/"
  | .mod => "%"

/-- The operator with a spelling. -/
def ofSymbol? : String → Option BinaryOp
  | "||" => some .logicalOr
  | "&&" => some .logicalAnd
  | "==" => some .equal
  | "!=" => some .notEqual
  | "<" => some .less
  | ">" => some .greater
  | "<=" => some .lessEqual
  | ">=" => some .greaterEqual
  | "+" => some .add
  | "-" => some .sub
  | "&" => some .bitAnd
  | "|" => some .bitOr
  | "^" => some .bitXor
  | "<<" => some .shiftLeft
  | ">>" => some .shiftRight
  | "*" => some .mul
  | "/" => some .div
  | "%" => some .mod
  | _ => none

/-- How tightly an operator binds its operands. -/
def precedence : BinaryOp → Nat
  | .logicalOr => 1
  | .logicalAnd => 2
  | .equal | .notEqual | .less | .greater | .lessEqual | .greaterEqual => 3
  | .add | .sub => 4
  | .bitAnd | .bitOr | .bitXor => 5
  | .shiftLeft | .shiftRight => 6
  | .mul | .div | .mod => 7

end BinaryOp

/-- How tightly an operator in front binds its operand. -/
def unaryPrecedence : Nat := 8

/-- How tightly calls and indices bind what they follow. -/
def postfixPrecedence : Nat := 9

/-! ## Trees -/

/-- Expressions as written. -/
inductive Expr where
  | number (token : Token)
  | string (token : Token)
  | identifier (token : Token)
  | unary (op : UnaryOp) (token : Token) (operand : Expr)
  | binary (op : BinaryOp) (token : Token) (left right : Expr)
  /-- A call; the token is the name of the function. -/
  | call (token : Token) (args : List Expr)
  /-- An expression in brackets, `[e]`. -/
  | bracket (token : Token) (inner : Expr)
  /-- An expression followed by one in brackets, `b[e]`. -/
  | index (token : Token) (base inner : Expr)
deriving Inhabited

namespace Expr

/-- The token that stands for an expression in reports. -/
def token : Expr → Token
  | .number t | .string t | .identifier t | .unary _ t _ | .binary _ t _ _ | .call t _
  | .bracket t _ | .index t _ _ => t

/-- The text of that token. -/
def text (e : Expr) : String := e.token.text

/-- The spelling of an identifier in lower case, to compare it with registers and conditions. -/
def word? : Expr → Option String
  | .identifier t => some (Text.lower t.text)
  | _ => none

end Expr

end Sm83Asm
