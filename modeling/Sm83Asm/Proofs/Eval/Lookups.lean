import Sm83Asm.Execute.Data
import Sm83Asm.Instruction.Encode

set_option autoImplicit false

/-!
# Names that are looked up

Which names are asked for their value while texts, expressions, data and instructions are worked
out. The lists follow the evaluation step by step: what is not reached, because a value is settled
before or because an operand did not fit, does not count. Where the way depends on numbers that are
drawn, the lists are those of a given state of the random source.
-/

namespace Sm83Asm

/-! ## Texts -/

/-- The name that stands between two braces. -/
def interpolatedName (inner : List Char) : String :=
  match Text.splitOnce? ':' inner with
  | some (_, name) => String.ofList (Text.trim name)
  | none => String.ofList (Text.trim inner)

/-- The names that one pass over a text looks up. -/
def interpolatedNames (cs : List Char) : List String :=
  match cs with
  | [] => []
  | ['\\'] => []
  | '\\' :: _ :: rest => interpolatedNames rest
  | c :: rest =>
    if c == '\x7b' then
      match rest.dropWhile (fun c => !isBrace c) with
      | close :: _ =>
        if close == '\x7d' then
          let inner := rest.takeWhile fun c => !isBrace c
          interpolatedName inner :: interpolatedNames (rest.drop (inner.length + 1))
        else interpolatedNames rest
      | [] => interpolatedNames rest
    else interpolatedNames rest
termination_by cs.length
decreasing_by all_goals simp only [List.length_cons, List.length_drop]; omega

namespace State

/-- The names that passes over a text look up, of which `left` more are allowed. -/
def settleLookups (st : State) (left : Nat) (cs : List Char) : List String :=
  let pass := st.substitutePass cs
  interpolatedNames cs ++
    if !pass.changed then []
    else
      match left with
      | 0 => []
      | left + 1 => st.settleLookups left pass.text

/-- The names that a string literal looks up. -/
def stringLookups (st : State) (literal : String) : List String :=
  st.settleLookups (st.config.maxSubstitutions - 1) (unquote literal.toList)

end State

namespace Scope

/-! ## Places -/

/-- The names that are looked up to find a place. -/
def placeLookups (name : String) : List String := if name == "@" then [] else [name]

/-- The names that are looked up to find the place of an expression. -/
def locationLookups : Expr → List String
  | .identifier t => placeLookups t.text
  | _ => []

/-- The names that are looked up for a distance. -/
def distanceLookups (sc : Scope) (left right : Expr) : List String :=
  locationLookups left ++ if (sc.location? left).isSome then locationLookups right else []

/-- The names that are looked up to see whether an expression is a difference of places. -/
def differenceLookups (sc : Scope) : Expr → List String
  | .binary .sub _ left right => sc.distanceLookups left right
  | _ => []

/-! ## Values -/

mutual

/-- The names that are looked up to see whether an expression is constant. -/
def constancyLookups (sc : Scope) : Expr → List String
  | .number _ | .string _ => []
  | .identifier t => placeLookups t.text
  | .unary _ _ e => sc.constancyLookups e
  | .binary op t l r =>
    sc.differenceLookups (.binary op t l r) ++
      if (sc.difference? (.binary op t l r)).isSome then []
      else sc.constancyLookups l ++ if sc.isConstant l then sc.constancyLookups r else []
  | .call t args =>
    match Function.ofWord? t.text sc.state.extensions with
    | none => []
    | some f => if f.isAlwaysConstant || f.isLinkTime then [] else sc.allConstancyLookups args
  | .bracket _ e => sc.constancyLookups e
  | .index _ b e =>
    sc.constancyLookups b ++ if sc.isConstant b then sc.constancyLookups e else []

/-- The names that are looked up to see whether all of some expressions are constant. -/
def allConstancyLookups (sc : Scope) : List Expr → List String
  | [] => []
  | e :: es =>
    sc.constancyLookups e ++ if sc.isConstant e then sc.allConstancyLookups es else []

end

mutual

/-- The names that the value of an expression looks up. -/
def valueLookups (sc : Scope) : Expr → List String
  | .number _ => []
  | .string t => sc.state.stringLookups t.text
  | .identifier t =>
    t.text :: if (sc.state.lookup? t.text).isSome then [] else placeLookups t.text
  | .unary _ _ e => sc.valueLookups e
  | .binary op t l r =>
    sc.differenceLookups (.binary op t l r) ++
      if (sc.difference? (.binary op t l r)).isSome then []
      else sc.valueLookups l ++ sc.valueLookups r
  | .call t args =>
    match sc.callee t args.length with
    | .error _ => []
    | .ok f =>
      if f.isLinkTime then []
      else
        match f, args with
        | .isconst, _ => sc.allConstancyLookups args
        | .defined, [.identifier _] => []
        | _, _ => sc.argumentLookups args
  | .bracket _ e => sc.valueLookups e
  | .index _ _ e => sc.valueLookups e

/-- The names that the values of arguments look up. -/
def argumentLookups (sc : Scope) : List Expr → List String
  | [] => []
  | e :: es => sc.valueLookups e ++ sc.argumentLookups es

end

/-- The names that are looked up for an expression that must be constant. -/
def evaluateLookups (sc : Scope) (e : Expr) : List String :=
  sc.constancyLookups e ++ if sc.isConstant e then sc.valueLookups e else locationLookups e

/-- The names that are looked up for an expression that may be constant. -/
def constantLookups (sc : Scope) (e : Expr) : List String :=
  sc.constancyLookups e ++ if sc.isConstant e then sc.evaluateLookups e else []

/-! ## Programs for the linker -/

/-- The names that a question about a symbol or a section looks up. -/
def queryLookups (sc : Scope) (f : Function) : List Expr → List String
  | [] => []
  | .identifier t :: _ =>
    if (ofHere? f).isSome then [] else sc.evaluateLookups (.identifier t)
  | e :: _ => sc.evaluateLookups e

/-- The names that compiling an expression looks up. -/
def compileLookups (sc : Scope) (e : Expr) : List String :=
  sc.constancyLookups e ++
    if sc.isConstant e then sc.evaluateLookups e
    else
      match e with
      | .number _ | .string _ | .identifier _ => []
      | .unary _ _ e => sc.compileLookups e
      | .binary _ _ l r => sc.compileLookups l ++ sc.compileLookups r
      | .call t args =>
        match sc.callee t args.length with
        | .error _ => []
        | .ok f =>
          match f, args with
          | .high, [e] | .low, [e] => sc.compileLookups e
          | _, _ => if f.isLinkTime then sc.queryLookups f args else []
      | .bracket _ e => sc.compileLookups e
      | .index _ _ e => sc.compileLookups e

/-- The names that queuing a patch looks up. -/
def deferLookups (sc : Scope) (e : Expr) : List String :=
  if sc.state.current.isSome then sc.compileLookups e else []

/-- The names that are looked up for a value, or for a patch when there is none. -/
def patchLookups (sc : Scope) (e : Expr) : List String :=
  sc.constancyLookups e ++ if sc.isConstant e then sc.evaluateLookups e else sc.deferLookups e

/-! ## Data -/

/-- The names that items of data look up, the first of which comes to lie at `offset`. -/
def dataLookups (sc : Scope) (keyword : Keyword) (s : Emission) (offset : Nat) :
    List Expr → List String
  | [] => []
  | e :: es =>
    let o := sc.dataItem keyword offset e s
    { sc with pinned := some offset }.patchLookups e ++
      sc.dataLookups keyword o.state (offset + o.value.length) es

/-! ## Instructions -/

/-- The names that are looked up to see whether an operand is a pointer. -/
def pointerLookups (sc : Scope) (p : Pointer) : Expr → List String
  | .binary .add _ l r => if p == .c && r.word? == some "c" then sc.constantLookups l else []
  | _ => []

/-- The names that are looked up to see whether an operand fits a pattern. -/
def fitsLookups (sc : Scope) (pattern : Pattern) (e : Expr) : List String :=
  match pattern, e.bracketed? with
  | .ind p, some inner => sc.pointerLookups p inner
  | .u3, _ | .vector, _ => if e.isFree then sc.constantLookups e else []
  | .ldhN8, some inner => if inner.isFree then sc.constantLookups inner else []
  | .highN8, some inner =>
    if sc.state.options.optimizeLdh && inner.isFree then sc.constantLookups inner else []
  | _, _ => []

/-- The names that are looked up to see whether operands fit patterns. -/
def fitAllLookups (sc : Scope) (r : Random) : List Pattern → List Expr → List String
  | p :: ps, e :: es =>
    let o := sc.fits p e r
    sc.fitsLookups p e ++ if o.value then sc.fitAllLookups o.state ps es else []
  | _, _ => []

/-- The names that are looked up to find the first variant that fits. -/
def firstFitLookups (sc : Scope) (args : List Expr) (r : Random) : List Variant → List String
  | [] => []
  | v :: vs =>
    if v.operands.length == args.length then
      let o := sc.fitAll v.operands args r
      sc.fitAllLookups r v.operands args ++
        if o.value then [] else sc.firstFitLookups args o.state vs
    else sc.firstFitLookups args r vs

/-- The names that are looked up to find the variant of a mnemonic. -/
def variantLookups (sc : Scope) (mnemonic : String) (args : List Expr) (r : Random) :
    List String :=
  match variants? (Text.lower mnemonic) with
  | none => []
  | some variants => sc.firstFitLookups args r variants

/-- The names that are looked up to find a jump target in the open section. -/
def targetLookups (sc : Scope) (s : Random) : Expr → List String
  | .identifier t => placeLookups t.text
  | .binary op _ l r =>
    if op == .add || op == .sub then
      sc.targetLookups s l ++
        if (sc.target? l s).value.isSome then
          sc.constancyLookups r ++ if sc.isConstant r then sc.evaluateLookups r else []
        else []
    else []
  | _ => []

/-- The names that the operand of a jump looks up. -/
def jumpLookups (sc : Scope) (s : Random) (e : Expr) : List String :=
  sc.targetLookups s e ++
    (if (sc.target? e s).value.isSome then [] else sc.constantLookups e) ++
    if (sc.jumpTarget? e s).value.isSome then [] else sc.deferLookups e

/-- The names that the code of an operand looks up. -/
def operandLookups (sc : Scope) (s : Random) (pattern : Pattern) (e : Expr) : List String :=
  match pattern with
  | .reg _ | .cond _ | .ind _ => []
  | .u3 | .vector => sc.evaluateLookups e
  | .n8 | .e8 | .n16 => sc.patchLookups e
  | .spE8 =>
    match e with
    | .binary op t _ r => sc.patchLookups (if op == .sub then .unary .neg t r else r)
    | _ => []
  | .indN16 =>
    match e.bracketed? with
    | none => []
    | some inner => sc.patchLookups inner
  | .ldhN8 | .highN8 =>
    match e.bracketed? with
    | none => []
    | some inner =>
      sc.constantLookups inner ++
        if sc.isConstant inner then [] else sc.patchLookups inner
  | .rel => sc.jumpLookups s e

/-- The names that the codes of operands look up, the first of which comes to lie at `offset`. -/
def operandsLookups (sc : Scope) (s : Emission) (offset : Nat) :
    List Pattern → List Expr → List String
  | p :: ps, e :: es =>
    let o := sc.operandCode offset p e s
    sc.operandLookups s.linkage.random p e ++
      sc.operandsLookups o.state (offset + o.value.bytes.length) ps es
  | _, _ => []

/-- The names that an instruction looks up. -/
def encodeLookups (sc : Scope) (s : Emission) (word : Token) (args : List Expr) : List String :=
  let mnemonic := Text.lower word.text
  let o := Act.drawing (sc.selectVariant mnemonic args) s
  sc.variantLookups mnemonic args s.linkage.random ++
    match o.value with
    | none => []
    | some variant =>
      let start := sc.state.offset?.getD 0
      sc.operandsLookups o.state (start + variant.lead.toList.length + 1) variant.operands args

end Scope

end Sm83Asm
