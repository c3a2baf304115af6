set_option autoImplicit false

/-!
# Reproducible random numbers

A 32-bit shift-register generator: three xor-shifts per draw. The all-zero register would repeat
itself forever, so seeding with zero selects a fixed non-zero register instead.
-/

namespace Sm83Asm

/-- A random source, given by its register. -/
structure Random where
  /-- The register that the next draw starts from. -/
  register : UInt32
deriving DecidableEq, Repr, Inhabited

namespace Random

/-- The register that seed zero stands for. -/
def defaultRegister : UInt32 := 0x2545F491

/-- The source started from a seed. -/
def ofSeed (seed : UInt32) : Random :=
  ⟨if seed == 0 then defaultRegister else seed⟩

/-- One step of the register. -/
def step (x : UInt32) : UInt32 :=
  let x := x ^^^ (x <<< 13)
  let x := x ^^^ (x >>> 17)
  x ^^^ (x <<< 5)

/-- Draws 32 bits. -/
def long (r : Random) : UInt32 × Random :=
  let x := step r.register
  (x, ⟨x⟩)

/-- Draws 16 bits, the upper half of a draw. -/
def word (r : Random) : UInt16 × Random :=
  let (x, r) := r.long
  ((x >>> 16).toUInt16, r)

/-- Draws 8 bits, the top byte of a draw. -/
def byte (r : Random) : UInt8 × Random :=
  let (x, r) := r.long
  ((x >>> 24).toUInt8, r)

/-- Draws a number between two bounds, both included, given in either order. -/
def range (r : Random) (a b : Int32) : Int32 × Random :=
  let (lo, hi) := if a ≤ b then (a.toInt, b.toInt) else (b.toInt, a.toInt)
  let (x, r) := r.long
  (Int32.ofInt (lo + (x.toNat : Int) % (hi - lo + 1)), r)

end Random

end Sm83Asm
