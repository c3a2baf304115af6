import Sm83Asm.Expr

set_option autoImplicit false

/-!
# Source lines

A parsed line has at most one label, then at most one operation, then at most one comment. What
the assembler does with a line of text is a `Statement`: carry out a parsed line, pass over it, or
nothing because it could not be parsed.
-/

namespace Sm83Asm

/-- A label in front of an operation. -/
structure LabelDef where
  name : Token
  /-- The colon or double colon behind the name. -/
  terminator : Option Token
deriving Inhabited

/-- Whether a label is exported by a double colon. -/
def LabelDef.isExported (label : LabelDef) : Bool :=
  match label.terminator with
  | some t => t.kind == .doubleColon
  | none => false

/-- What a line asks for. -/
inductive Operation where
  | directive (word : Token) (args : List Expr)
  | keyword (word : Token) (args : List Expr)
  /-- A keyword whose arguments are option texts. -/
  | options (word : Token) (args : List Token)
  | opcode (word : Token) (args : List Expr)
  /-- A macro call; the arguments are kept as text. -/
  | macroCall (name : Token) (args : List Token)
  /-- The assignment `=`. -/
  | assign (word : Token) (value : Expr)
deriving Inhabited

namespace Operation

/-- The token that names the operation. -/
def word : Operation → Token
  | .directive t _ | .keyword t _ | .options t _ | .opcode t _ | .macroCall t _ | .assign t _ => t

/-- The arguments that are expressions. -/
def operands : Operation → List Expr
  | .directive _ args | .keyword _ args | .opcode _ args => args
  | .assign _ value => [value]
  | .options _ _ | .macroCall _ _ => []

end Operation

/-- A parsed line. -/
structure Line where
  start : Token
  label : Option LabelDef := none
  operation : Option Operation := none
  comment : Option Token := none
deriving Inhabited

/-- What the assembler makes of a line of text. -/
inductive Statement where
  | line (line : Line)
  /-- A line that is recorded for later or lies in a dead branch. -/
  | ignored (start : Token)
  /-- A line that could not be parsed; parsing stopped in front of a token. -/
  | invalid (stop : Token)
deriving Inhabited

end Sm83Asm
