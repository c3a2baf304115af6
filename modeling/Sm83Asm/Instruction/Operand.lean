import Sm83Asm.Eval.Constant
import Sm83Asm.Instruction.Table

set_option autoImplicit false

/-!
# Matching operands

Which pattern an operand fits. Registers, conditions and pointers are told by their spelling; all
other operands are free expressions, which name no register and use no brackets. Patterns with a
range of values compute the value of the operand to decide.
-/

namespace Sm83Asm

/-- The register that `HIGH` or `LOW` of a register pair names. -/
def halfOf? (high : Bool) : String → Option Register
  | "af" => if high then some .a else none
  | "bc" => some (if high then .b else .c)
  | "de" => some (if high then .d else .e)
  | "hl" => some (if high then .h else .l)
  | _ => none

namespace Expr

/-- The register that an expression like `HIGH(bc)` names. -/
def half? : Expr → Option Register
  | .call t [e] =>
    match e.word? with
    | none => none
    | some pair =>
      if t.isWord "HIGH" then halfOf? true pair
      else if t.isWord "LOW" then halfOf? false pair
      else none
  | _ => none

/-- Whether an expression names a register. -/
def isRegister (e : Expr) (r : Register) : Bool :=
  e.word? == some r.name || e.half? == some r

/-- The expression in brackets. -/
def bracketed? : Expr → Option Expr
  | .bracket _ e => some e
  | _ => none

/-- Words that are never free expressions. -/
def reservedWords : List String :=
  ["a", "b", "c", "d", "e", "h", "l", "af", "bc", "de", "hl", "sp", "hl+", "hl-", "hli", "hld",
    "nz"]

mutual

/-- Whether an expression names no register and uses no brackets. -/
def isFree : Expr → Bool
  | .number _ | .string _ => true
  | .identifier t => !reservedWords.contains (Text.lower t.text)
  | .unary _ _ e => e.isFree
  | .binary _ _ l r => l.isFree && r.isFree
  | .call t args => (Expr.call t args).half?.isNone && allFree args
  | .bracket _ _ | .index _ _ _ => false

/-- Whether all of some expressions are free. -/
def allFree : List Expr → Bool
  | [] => true
  | e :: es => e.isFree && allFree es

end

end Expr

/-- The pointer that a word between brackets spells. -/
def Pointer.isSpelled (p : Pointer) (word : String) : Bool :=
  (match word with
    | "hli" => "hl+"
    | "hld" => "hl-"
    | other => other) == p.name

namespace Scope

/-- Whether an expression is constant and its value passes a test. -/
def constantIn (sc : Scope) (test : Int32 → Bool) (e : Expr) : Act Random Bool := do
  let n ← sc.constant? e
  return n.any test

/-- Whether what stands in brackets is a pointer. The pointer `c` may also be written as a sum
with the start of the top page. -/
def isPointer (sc : Scope) (p : Pointer) : Expr → Act Random Bool
  | .identifier t => return p.isSpelled (Text.lower t.text)
  | .binary .add _ l r =>
    if p == .c && r.word? == some "c" then sc.constantIn (· == 0xFF00) l else return false
  | _ => return false

/-- Addresses of the top page. -/
def inTopPage (n : Int32) : Bool := 0xFF00 ≤ n && n ≤ 0xFFFF

/-- Whether an operand fits a pattern. -/
def fits (sc : Scope) (pattern : Pattern) (e : Expr) : Act Random Bool :=
  match pattern with
  | .reg r => return e.isRegister r
  | .cond condition => return e.word? == some condition.name
  | .ind p =>
    match e.bracketed? with
    | none => return false
    | some inner => sc.isPointer p inner
  | .n8 | .n16 | .e8 | .rel => return e.isFree
  | .u3 => if e.isFree then sc.constantIn (fun n => 0 ≤ n && n ≤ 7) e else return false
  | .vector =>
    if e.isFree then sc.constantIn (fun n => 0 ≤ n && n ≤ 0x38 && n % 8 == 0) e else return false
  | .indN16 => return e.bracketed?.any Expr.isFree
  | .ldhN8 =>
    match e.bracketed? with
    | none => return false
    | some inner =>
      if inner.isFree then do
        let n ← sc.constant? inner
        return n.all fun n => (0 ≤ n && n ≤ 0xFF) || inTopPage n
      else return false
  | .highN8 =>
    match e.bracketed? with
    | none => return false
    | some inner =>
      if sc.state.options.optimizeLdh && inner.isFree then sc.constantIn inTopPage inner
      else return false
  | .spE8 =>
    return match e with
      | .binary op _ l r => (op == .add || op == .sub) && l.word? == some "sp" && r.isFree
      | _ => false

/-- Whether operands fit patterns one by one. -/
def fitAll (sc : Scope) : List Pattern → List Expr → Act Random Bool
  | p :: ps, e :: es => do
    if ← sc.fits p e then sc.fitAll ps es else return false
  | [], [] => return true
  | _, _ => return false

/-- The first variant with as many patterns as there are operands and all of them fitting. -/
def firstFit (sc : Scope) (args : List Expr) : List Variant → Act Random (Option Variant)
  | [] => return none
  | v :: vs =>
    if v.operands.length == args.length then do
      if ← sc.fitAll v.operands args then return some v else sc.firstFit args vs
    else sc.firstFit args vs

/-- The variant of a mnemonic, given in either case, for some operands. -/
def selectVariant (sc : Scope) (mnemonic : String) (args : List Expr) :
    Act Random (Option Variant) :=
  match variants? (Text.lower mnemonic) with
  | none => return none
  | some variants => sc.firstFit args variants

end Scope

end Sm83Asm
