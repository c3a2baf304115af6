import Mathlib.Tactic.Simps.Basic
import Sm83Asm.Execute.Data
import Sm83Asm.Instruction.Encode
import Sm83Asm.Proofs.Link.Compile
import Sm83Asm.Token.Stream

set_option autoImplicit false

/-!
# Values inside conditional blocks

A state may stand inside further conditional blocks without anything else being different
(`State.inside`). Tokens, values, link-time programs and the bytes of data and instructions are the
same there: none of them depends on the blocks that are open.
-/

namespace Sm83Asm

/-- The state inside further conditional blocks. -/
@[simps]
def State.inside (st : State) (outer : List Conditional) : State :=
  { st with conditionals := st.conditionals ++ outer }

/-- The scope inside further conditional blocks. -/
def Scope.inside (sc : Scope) (outer : List Conditional) : Scope :=
  { sc with state := sc.state.inside outer }

namespace State

variable (st : State) (outer : List Conditional)

@[simp] theorem scope_inside : (st.inside outer).scope = st.scope.inside outer := rfl

/-! ## Texts -/

-- The two functions are the same fixed point, of functionals that agree by definition.
/-- A pass over a text reads names, arguments and numbers of expansions, and no conditional block.
-/
@[simp] theorem substitutePass_inside (cs : List Char) :
    (st.inside outer).substitutePass cs = st.substitutePass cs := by
  with_unfolding_all rfl

/-- Passes until a text settles are the same inside of other blocks. -/
@[simp] theorem settle_inside (left done : Nat) (cs : List Char) :
    (st.inside outer).settle left done cs = st.settle left done cs := by
  induction left generalizing done cs with
  | zero => simp only [settle, substitutePass_inside]
  | succ left ih => simp only [settle, substitutePass_inside, ih]

/-- A literal has the same text, and the same errors, inside of other blocks. -/
@[simp] theorem expandString_inside (literal : String) :
    (st.inside outer).expandString literal = st.expandString literal := by
  rw [expandString, settle_inside]
  rfl

/-! ## Tokens -/

@[simp] theorem cursor_inside : (st.inside outer).cursor = st.cursor := rfl

/-- Cutting a line into tokens looks at the extensions only. -/
@[simp] theorem rawTokens_inside : (st.inside outer).rawTokens = st.rawTokens := rfl

/-- What is put in for a token does not depend on the blocks around. -/
@[simp] theorem expandFrom?_inside (line : Nat) (whole : List Char) (seen : List Token)
    (cur : Cursor) (cs : List Char) :
    (st.inside outer).expandFrom? line whole seen cur cs =
      st.expandFrom? line whole seen cur cs := by
  with_unfolding_all rfl

@[simp] theorem failuresFrom_inside (line : Nat) (whole : List Char) (seen : List Token)
    (pieces : List Piece) :
    (st.inside outer).failuresFrom line whole seen pieces =
      st.failuresFrom line whole seen pieces := by
  induction pieces generalizing seen with
  | nil => rfl
  | cons p ps ih =>
    rw [failuresFrom, failuresFrom, ih]
    rfl

/-- A line has the same tokens, with or without substitutions, inside of other blocks. -/
@[simp] theorem lex_inside (line : Nat) (substitute : Bool) (cs : List Char) :
    (st.inside outer).lex line substitute cs = st.lex line substitute cs := by
  simp only [lex, expandFrom?_inside, failuresFrom_inside, cursor_inside, rawTokens_inside]

/-- Substituting up to a limit is the same inside of other blocks. -/
@[simp] theorem tokensWithin_inside (line limit left : Nat) (cs : List Char) :
    (st.inside outer).tokensWithin line limit left cs = st.tokensWithin line limit left cs := by
  induction left generalizing cs with
  | zero => rfl
  | succ left ih => simp only [tokensWithin, lex_inside, ih]

/-- The tokens that a line is parsed from are the same inside of other blocks. -/
@[simp] theorem tokenize_inside (line : Nat) (cs : List Char) :
    (st.inside outer).tokenize line cs = st.tokenize line cs :=
  st.tokensWithin_inside outer line _ _ cs

end State

namespace Scope

variable (sc : Scope) (outer : List Conditional)

@[simp] theorem state_inside : (sc.inside outer).state = sc.state.inside outer := rfl

/-! ## Values -/

@[simp] theorem placeOf?_inside : (sc.inside outer).placeOf? = sc.placeOf? := rfl

@[simp] theorem difference?_inside : (sc.inside outer).difference? = sc.difference? := rfl

@[simp] theorem callee_inside : (sc.inside outer).callee = sc.callee := rfl

@[simp] theorem coerce_inside : (sc.inside outer).coerce = sc.coerce := rfl

@[simp] theorem toNumber_inside : (sc.inside outer).toNumber = sc.toNumber := rfl

@[simp] theorem combine_inside : (sc.inside outer).combine = sc.combine := rfl

@[simp] theorem applyFunction_inside : (sc.inside outer).applyFunction = sc.applyFunction := rfl

mutual

/-- An expression is constant inside of other blocks exactly if it is outside. -/
theorem isConstant_inside : ∀ e, (sc.inside outer).isConstant e = sc.isConstant e
  | .number _ | .string _ | .identifier _ => rfl
  | .unary _ _ e => isConstant_inside e
  | .binary op t l r => by
    simp only [isConstant, difference?_inside, isConstant_inside l, isConstant_inside r]
  | .call t args => by
    simp only [isConstant, allConstant_inside args]
    rfl
  | .bracket _ e => isConstant_inside e
  | .index _ b e => by simp only [isConstant, isConstant_inside b, isConstant_inside e]

theorem allConstant_inside : ∀ es, (sc.inside outer).allConstant es = sc.allConstant es
  | [] => rfl
  | e :: es => by simp only [allConstant, isConstant_inside e, allConstant_inside es]

end

attribute [simp] isConstant_inside allConstant_inside

mutual

/-- An expression has the same value inside of other blocks. -/
theorem value_inside : ∀ e, (sc.inside outer).value e = sc.value e
  | .number _ | .identifier _ => rfl
  | .string t => by simp only [value, state_inside, State.expandString_inside]
  | .unary op t e => by simp only [value, value_inside e, toNumber_inside]
  | .binary op t l r => by
    simp only [value, difference?_inside, value_inside l, value_inside r, combine_inside]
  | .call t args => by
    simp only [value, callee_inside, allConstant_inside, argumentValues_inside _ _ args,
      applyFunction_inside]
    rfl
  | .bracket _ e => value_inside e
  | .index _ _ e => value_inside e

/-- The arguments of a function have the same values inside of other blocks. -/
theorem argumentValues_inside (f : Function) (i : Nat) :
    ∀ es, (sc.inside outer).argumentValues f i es = sc.argumentValues f i es
  | [] => rfl
  | e :: es => by
    simp only [argumentValues, value_inside e, coerce_inside, argumentValues_inside f (i + 1) es]

end

attribute [simp] value_inside argumentValues_inside

/-- A value of a certain kind is the same inside of other blocks. -/
@[simp] theorem evaluate_inside (expected : Expected) (e : Expr) :
    (sc.inside outer).evaluate expected e = sc.evaluate expected e := by
  simp only [evaluate, isConstant_inside, value_inside, coerce_inside, placeOf?_inside]
  rfl

@[simp] theorem number_inside (e : Expr) : (sc.inside outer).number e = sc.number e := by
  simp only [number, evaluate_inside]

@[simp] theorem text_inside (e : Expr) : (sc.inside outer).text e = sc.text e := by
  simp only [text, evaluate_inside]

/-- What is known before linking is the same inside of other blocks. -/
@[simp] theorem constant?_inside (e : Expr) : (sc.inside outer).constant? e = sc.constant? e := by
  simp only [constant?, isConstant_inside, number_inside]

/-! ## Programs for the linker -/

@[simp] theorem compileName_inside : (sc.inside outer).compileName = sc.compileName := rfl

@[simp] theorem compileQuery_inside (f : Function) (args : List Expr) :
    (sc.inside outer).compileQuery f args = sc.compileQuery f args := by
  simp only [compileQuery, text_inside]
  rfl

/-- The program for the linker is the same inside of other blocks. -/
@[simp] theorem compile_inside (location : Nat) (e : Expr) :
    (sc.inside outer).compile location e = sc.compile location e := by
  induction e using compile_induction sc with
  | constant e hc =>
    rw [compile_of_isConstant hc, compile_of_isConstant ((sc.isConstant_inside outer e).trans hc),
      number_inside]
  | name t hc => simp only [compile, isConstant_inside, number_inside, compileName_inside]
  | unary op t e hc ih => simp only [compile, isConstant_inside, number_inside, ih]
  | binary op t l r hc ihl ihr => simp only [compile, isConstant_inside, number_inside, ihl, ihr]
  | unknown t args cause hc hf =>
    simp only [compile, isConstant_inside, number_inside, callee_inside, hf]
  | high t e hc hf ih =>
    simp only [compile, isConstant_inside, number_inside, callee_inside, hf, ih]
  | low t e hc hf ih =>
    simp only [compile, isConstant_inside, number_inside, callee_inside, hf, ih]
  | query t args f hc hf hl =>
    have hc' : ¬ (sc.inside outer).isConstant (.call t args) = true := by
      rwa [isConstant_inside]
    rw [compile_of_isLinkTime hc hf hl, compile_of_isLinkTime hc' hf hl, compileQuery_inside]
  | ordinary t args f hc hf hl hhigh hlow =>
    have hc' : ¬ (sc.inside outer).isConstant (.call t args) = true := by
      rwa [isConstant_inside]
    rw [compile_of_ordinary hc hf hl hhigh hlow, compile_of_ordinary hc' hf hl hhigh hlow]
  | bracket t e hc ih => simp only [compile, isConstant_inside, number_inside, ih]
  | index t b e hc ih => simp only [compile, isConstant_inside, number_inside, ih]

/-- What is left to the linker is the same inside of other blocks. -/
@[simp] theorem deferWith_inside (check : Link.Program) (kind : PatchKind) (offset : Nat)
    (e : Expr) :
    (sc.inside outer).deferWith check kind offset e = sc.deferWith check kind offset e := by
  simp only [deferWith, compile_inside]
  rfl

/-- A value is computed, or left to the linker, inside of other blocks as outside. -/
@[simp] theorem valueOrPatch_inside (check : Link.Program) (kind : PatchKind) (offset : Nat)
    (expected : Expected) (e : Expr) :
    (sc.inside outer).valueOrPatch check kind offset expected e =
      sc.valueOrPatch check kind offset expected e := by
  simp only [valueOrPatch, isConstant_inside, evaluate_inside, deferWith_inside]

@[simp] theorem numberOrPatch_inside (kind : PatchKind) (offset : Nat) (e : Expr) :
    (sc.inside outer).numberOrPatch kind offset e = sc.numberOrPatch kind offset e := by
  simp only [numberOrPatch, valueOrPatch_inside]

@[simp] theorem topPageOrPatch_inside (offset : Nat) (e : Expr) :
    (sc.inside outer).topPageOrPatch offset e = sc.topPageOrPatch offset e := by
  simp only [topPageOrPatch, valueOrPatch_inside]

/-- The place of a jump target is the same inside of other blocks. -/
@[simp] theorem target?_inside (e : Expr) : (sc.inside outer).target? e = sc.target? e := by
  induction e using target?.induct with
  | case1 t => rfl
  | case2 op t l r h ih => simp only [target?, ih, isConstant_inside, number_inside]
  | case3 op t l r h => simp only [target?, h]; rfl
  | case4 e hname hbinary =>
    cases e with
    | identifier t => exact (hname t rfl).elim
    | binary op t l r => exact (hbinary op t l r rfl).elim
    | _ => rfl

/-! ## Data -/

@[simp] theorem dataItem_inside (keyword : Keyword) (offset : Nat) (e : Expr) :
    (sc.inside outer).dataItem keyword offset e = sc.dataItem keyword offset e := by
  have hpinned : ({ sc.inside outer with pinned := some offset } : Scope) =
      ({ sc with pinned := some offset } : Scope).inside outer := rfl
  simp only [dataItem, hpinned, valueOrPatch_inside, numberOrPatch_inside]
  rfl

/-- Items of data are the same inside of other blocks. -/
@[simp] theorem dataItems_inside (keyword : Keyword) (offset : Nat) (es : List Expr) :
    (sc.inside outer).dataItems keyword offset es = sc.dataItems keyword offset es := by
  induction es generalizing offset with
  | nil => rfl
  | cons e es ih => simp only [dataItems, dataItem_inside, ih]

/-! ## Instructions -/

@[simp] theorem isPointer_inside (p : Pointer) (e : Expr) :
    (sc.inside outer).isPointer p e = sc.isPointer p e := by
  simp only [isPointer, constantIn, constant?_inside]

/-- An operand fits the same patterns inside of other blocks. -/
@[simp] theorem fits_inside (pattern : Pattern) (e : Expr) :
    (sc.inside outer).fits pattern e = sc.fits pattern e := by
  simp only [fits, constantIn, isPointer_inside, constant?_inside]
  rfl

@[simp] theorem fitAll_inside (ps : List Pattern) (es : List Expr) :
    (sc.inside outer).fitAll ps es = sc.fitAll ps es := by
  induction ps generalizing es with
  | nil => cases es <;> rfl
  | cons p ps ih =>
    cases es with
    | nil => rfl
    | cons e es => simp only [fitAll, fits_inside, ih]

@[simp] theorem firstFit_inside (args : List Expr) (vs : List Variant) :
    (sc.inside outer).firstFit args vs = sc.firstFit args vs := by
  induction vs with
  | nil => rfl
  | cons v vs ih => simp only [firstFit, fitAll_inside, ih]

/-- An instruction has the same variant inside of other blocks. -/
@[simp] theorem selectVariant_inside (mnemonic : String) (args : List Expr) :
    (sc.inside outer).selectVariant mnemonic args = sc.selectVariant mnemonic args := by
  simp only [selectVariant, firstFit_inside]

@[simp] theorem jumpOperand_inside (offset : Nat) (e : Expr) :
    (sc.inside outer).jumpOperand offset e = sc.jumpOperand offset e := by
  simp only [jumpOperand, jumpTarget?, defer, target?_inside, constant?_inside, deferWith_inside]
  rfl

/-- An operand has the same code inside of other blocks. -/
@[simp] theorem operandCode_inside (offset : Nat) (pattern : Pattern) (e : Expr) :
    (sc.inside outer).operandCode offset pattern e = sc.operandCode offset pattern e := by
  simp only [operandCode, byteOperand, wordOperand, topPageOperand, number_inside,
    numberOrPatch_inside, constant?_inside, topPageOrPatch_inside, jumpOperand_inside]

@[simp] theorem operandCodes_inside (offset : Nat) (ps : List Pattern) (es : List Expr) :
    (sc.inside outer).operandCodes offset ps es = sc.operandCodes offset ps es := by
  induction ps generalizing offset es with
  | nil => cases es <;> rfl
  | cons p ps ih =>
    cases es with
    | nil => rfl
    | cons e es => simp only [operandCodes, operandCode_inside, ih]

/-- An instruction is encoded in the same way inside of other blocks. -/
@[simp] theorem encode_inside (word : Token) (args : List Expr) :
    (sc.inside outer).encode word args = sc.encode word args := by
  simp only [encode, selectVariant_inside, operandCodes_inside]
  rfl

end Scope

end Sm83Asm
