import Sm83Asm.Act
import Sm83Asm.Eval.Arithmetic
import Sm83Asm.Eval.Literal
import Sm83Asm.Eval.Scope
import Sm83Asm.Numeral

set_option autoImplicit false

/-!
# Evaluating constants

The value of an expression that is known before linking. Evaluation can only draw random numbers
and add reports; what cannot be computed counts as zero or as the empty text.
-/

namespace Sm83Asm

/-- The number that a text stands for: what the charmap says, or the code of its only
character. -/
def State.charValue (st : State) (s : String) : Except EvaluationCause Int32 :=
  match st.charmap.get? s with
  | some byte => .ok (Int32.ofNat byte.toNat)
  | none =>
    match s.toList with
    | [c] => .ok (Int32.ofNat c.toNat)
    | _ => .error (.notANumber s)

namespace Scope

/-- Reports a cause and goes on with a value. -/
def orElseReport {α : Type} (token : Token) (fallback : α) : Except EvaluationCause α → Act Random α
  | .ok a => pure a
  | .error cause => do
    Act.fault cause token
    return fallback

/-- Turns a value into what is expected. -/
def coerce (sc : Scope) (expected : Expected) (token : Token) (value : Value) : Act Random Value :=
  match value, expected with
  | .text s, .number => do
    let n ← orElseReport token 0 (sc.state.charValue s)
    return .number n
  | .number _, .text => do
    Act.fault .stringExpected token
    return .text ""
  | value, _ => return value

/-- The number of a value. -/
def toNumber (sc : Scope) (token : Token) (value : Value) : Act Random Int32 :=
  Value.toNumber <$> sc.coerce .number token value

/-- The value of an operator applied to the values of two operands with their tokens. Texts can be
compared with each other; all other operators take numbers. -/
def combine (sc : Scope) (op : BinaryOp) (token leftToken rightToken : Token)
    (left right : Value) : Act Random Value :=
  let onNumbers : Act Random Value := do
    let a ← sc.toNumber leftToken left
    let b ← sc.toNumber rightToken right
    match op.apply? a b with
    | some n => return .number n
    | none => do
      Act.fault .divisionByZero token
      return .number 0
  match op, left, right with
  | .equal, .text s, .text t => return .number (truth (s == t))
  | .notEqual, .text s, .text t => return .number (truth (s != t))
  | _, _, _ => onNumbers

/-- The value of a function for the values of its arguments. -/
def applyFunction (sc : Scope) (token : Token) :
    Function → List Value → Act Random Value
  | .high, [.number n] => return .number (highByte n)
  | .low, [.number n] => return .number (lowByte n)
  | .defined, [.text name] => return .number (truth (sc.state.isDefined name))
  | .strlen, [.text s] => return .number (Int32.ofNat s.length)
  | .strcat, values => return .text (String.join (values.map Value.toText))
  | .strcmp, [.text a, .text b] => return .number (compareText a b)
  | .strin, [.text haystack, .text needle] => return .number (positionOf haystack needle)
  | .strsub, [.text s, .number start] => return .text (subText s start none)
  | .strsub, [.text s, .number start, .number length] =>
    return .text (subText s start (some length))
  | .strupr, [.text s] => return .text (String.ofList (Text.toUpper s.toList))
  | .strlwr, [.text s] => return .text (String.ofList (Text.toLower s.toList))
  | .strrpl, [.text s, .text old, .text new] =>
    return .text (String.ofList (Text.replaceAll old.toList new.toList s.toList))
  | .mul, [.number a, .number b] => return .number (fixedMul a b)
  | .div, [.number a, .number b] =>
    match fixedDiv? a b with
    | some n => return .number n
    | none => do
      Act.fault .divisionByZero token
      return .number 0
  | .floor, [.number n] => return .number (fixedFloor n)
  | .ceil, [.number n] => return .number (fixedCeil n)
  | .round, [.number n] => return .number (fixedRound n)
  | .randint, [.number a, .number b] => Value.number <$> Act.modifyGet fun r => r.range a b
  | .randbyte, [] => (fun b => Value.number (Int32.ofNat b.toNat)) <$> Act.modifyGet Random.byte
  | .randword, [] => (fun w => Value.number (Int32.ofNat w.toNat)) <$> Act.modifyGet Random.word
  | .randlong, [] => (fun n => Value.number n.toInt32) <$> Act.modifyGet Random.long
  | _, _ => return .number 0

mutual

/-- The value of an expression that is taken to be constant. -/
def value (sc : Scope) : Expr → Act Random Value
  | .number t =>
    match Numeral.value? sc.state.options t.text with
    | some n => return .number n
    | none => do
      Act.fault (.invalidNumber t.text) t
      return .number 0
  | .string t => do
    let (text, causes) := sc.state.expandString t.text
    Act.tell (causes.map (Report.evaluation · t))
    return .text text
  | .identifier t =>
    match sc.state.lookup? t.text with
    | some value => return value
    | none => do
      Act.fault
        (if (sc.placeOf? t.text).isSome then .labelNotConstant t.text else .undefined t.text) t
      return .number 0
  | .unary op _ e => do
    let operand ← sc.value e
    let n ← sc.toNumber e.token operand
    return .number (op.apply n)
  | .binary op t l r =>
    match sc.difference? (.binary op t l r) with
    | some n => return .number n
    | none => do
      let a ← sc.value l
      let b ← sc.value r
      sc.combine op t l.token r.token a b
  | .call t args =>
    match sc.callee t args.length with
    | .error cause => do
      Act.fault cause t
      return .number 0
    | .ok f =>
      if f.isLinkTime then do
        Act.fault (.onlyAtLinkTime f) t
        return .number 0
      else
        match f, args with
        | .isconst, _ => return .number (truth (sc.allConstant args))
        | .defined, [.identifier name] => return .number (truth (sc.state.isDefined name.text))
        | _, _ => do
          let values ← sc.argumentValues f 0 args
          sc.applyFunction t f values
  | .bracket _ e => sc.value e
  | .index _ _ e => sc.value e

/-- The values of the arguments of a function from a position on, each as the function wants
it. -/
def argumentValues (sc : Scope) (f : Function) (i : Nat) : List Expr → Act Random (List Value)
  | [] => return []
  | e :: es => do
    let value ← sc.value e
    let value ← sc.coerce (if f.takesText i then .text else .number) e.token value
    let values ← sc.argumentValues f (i + 1) es
    return value :: values

end

/-- The value of an expression that must be constant. -/
def evaluate (sc : Scope) (expected : Expected) (e : Expr) : Act Random Value :=
  if sc.isConstant e then do
    let value ← sc.value e
    sc.coerce expected e.token value
  else do
    Act.fault
      (match e with
        | .identifier t =>
          if (sc.placeOf? t.text).isNone then .undefined t.text else .notConstant
        | _ => .notConstant)
      e.token
    return .zero expected

/-- The number of an expression that must be constant. -/
def number (sc : Scope) (e : Expr) : Act Random Int32 :=
  Value.toNumber <$> sc.evaluate .number e

/-- The text of an expression that must be constant. -/
def text (sc : Scope) (e : Expr) : Act Random String :=
  Value.toText <$> sc.evaluate .text e

/-- The number of an expression, if it is constant. -/
def constant? (sc : Scope) (e : Expr) : Act Random (Option Int32) :=
  if sc.isConstant e then some <$> sc.number e else return none

end Scope

end Sm83Asm
