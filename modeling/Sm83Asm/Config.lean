import Sm83Asm.Table

set_option autoImplicit false

/-!
# Options and configuration

Options are settings that source lines can change and that a pair of keywords can save and restore.
The configuration holds the settings that a run starts from, the first options among them.
-/

namespace Sm83Asm

/-- Settings that source lines can change. -/
structure Options where
  /-- The byte that fills reserved space. -/
  pad : UInt8 := 0
  /-- Whether `halt` is followed by a no-op. -/
  haltNop : Bool := true
  /-- Whether loads of the top page use their short form. -/
  optimizeLdh : Bool := false
  /-- The digits zero and one of binary literals. -/
  binaryDigits : Char × Char := ('0', '1')
  /-- The four digits of pixel literals. -/
  pixelDigits : Char × Char × Char × Char := ('0', '1', '2', '3')
deriving DecidableEq, Repr, Inhabited

namespace Options

/-- The digits of binary literals, in order of their value. -/
def binaryList (o : Options) : List Char := [o.binaryDigits.1, o.binaryDigits.2]

/-- The digits of pixel literals, in order of their value. -/
def pixelList (o : Options) : List Char :=
  [o.pixelDigits.1, o.pixelDigits.2.1, o.pixelDigits.2.2.1, o.pixelDigits.2.2.2]

/-- Options with the binary digits of a two-character text. -/
def withBinaryDigits? (o : Options) : List Char → Option Options
  | [zero, one] => some { o with binaryDigits := (zero, one) }
  | _ => none

/-- Options with the pixel digits of a four-character text. -/
def withPixelDigits? (o : Options) : List Char → Option Options
  | [a, b, c, d] => some { o with pixelDigits := (a, b, c, d) }
  | _ => none

end Options

/-! ## Configuration -/

/-- Settings of a run. -/
structure Config where
  /-- Turns the extensions off, unless a file asks for them. -/
  compatibility : Bool := false
  /-- Directories in which included files are looked for. -/
  searchDirs : List String := []
  pad : UInt8 := 0
  haltNop : Bool := true
  optimizeLdh : Bool := false
  /-- How deeply macro calls, repeats and included files may nest. -/
  maxDepth : Nat := 64
  /-- How often text in a line or a string may be replaced. -/
  maxSubstitutions : Nat := 1024
  seed : UInt32 := 0
  /-- Numbers defined from the start. -/
  defines : Table Int32 := {}
deriving Inhabited

/-- The options that a run starts with. -/
def Config.options (c : Config) : Options :=
  { pad := c.pad, haltNop := c.haltNop, optimizeLdh := c.optimizeLdh }

end Sm83Asm
