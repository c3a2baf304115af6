import Sm83Asm.Value

set_option autoImplicit false

/-!
# What an expression can know

A scope is a state together with the place that `@` stands for. It tells where labels are, and
which expressions are constant: those whose value does not depend on where the linker puts things.
-/

namespace Sm83Asm

/-- A state and the place of `@` in it. -/
structure Scope where
  state : State
  /-- The offset that `@` stands for; the start of the current line when there is none. -/
  pinned : Option Nat := none

namespace Scope

/-- The offset that `@` stands for. -/
def here? (sc : Scope) : Option Nat :=
  match sc.pinned with
  | some offset => some offset
  | none => sc.state.offset?

/-- Section and offset of a name, when it is `@` or a label. -/
def placeOf? (sc : Scope) (name : String) : Option (String × Nat) :=
  if name == "@" then
    match sc.state.current, sc.here? with
    | some place, some offset => some (place, offset)
    | _, _ => none
  else if (sc.state.lookup? name).isSome then none
  else
    ((sc.state.qualify name).bind sc.state.labels.get?).map fun label =>
      (label.place, label.offset)

/-- Section and offset of an expression, when it is `@` or a label. -/
def location? (sc : Scope) : Expr → Option (String × Nat)
  | .identifier t => sc.placeOf? t.text
  | _ => none

/-- The distance of two places in one section. -/
def distance? (sc : Scope) (left right : Expr) : Option Int32 :=
  match sc.location? left, sc.location? right with
  | some (place, a), some (place', b) =>
    if place == place' then some (Int32.ofNat a - Int32.ofNat b) else none
  | _, _ => none

/-- The value of a difference of two places in one section. -/
def difference? (sc : Scope) : Expr → Option Int32
  | .binary .sub _ left right => sc.distance? left right
  | _ => none

mutual

/-- Whether the value of an expression is known before linking. -/
def isConstant (sc : Scope) : Expr → Bool
  | .number _ | .string _ => true
  | .identifier t => t.text != "@" && (sc.state.lookup? t.text).isSome
  | .unary _ _ e => sc.isConstant e
  | .binary op t l r =>
    (sc.difference? (.binary op t l r)).isSome || (sc.isConstant l && sc.isConstant r)
  | .call t args =>
    match Function.ofWord? t.text sc.state.extensions with
    | none => false
    | some f => f.isAlwaysConstant || (!f.isLinkTime && sc.allConstant args)
  | .bracket _ e => sc.isConstant e
  | .index _ b e => sc.isConstant b && sc.isConstant e

/-- Whether all of some expressions are constant. -/
def allConstant (sc : Scope) : List Expr → Bool
  | [] => true
  | e :: es => sc.isConstant e && sc.allConstant es

end

/-- The function that a call names, if it takes that many arguments. -/
def callee (sc : Scope) (name : Token) (count : Nat) : Except EvaluationCause Function :=
  match Function.ofWord? name.text sc.state.extensions with
  | none => .error (.unknownFunction name.text)
  | some f => if f.arity.accepts count then .ok f else .error (.functionArity f)

end Scope

end Sm83Asm
