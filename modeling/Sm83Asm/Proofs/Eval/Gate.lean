import Mathlib.Tactic.Simps.Basic
import Sm83Asm.Proofs.Eval.Lookups
import Sm83Asm.Proofs.Instruction.Overflow
import Sm83Asm.Proofs.Link.Compile

set_option autoImplicit false

/-!
# Values behind the gate of the extensions

A state can be given another setting of the extensions without anything else being different
(`State.gated`). What a state says about names, texts, values, link-time programs and the bytes of
data and instructions is the same with every setting, as long as no function of the extensions is
called and the counter of the expansions is not looked up.
-/

namespace Sm83Asm

/-- The state with another setting of the extensions: whether files begin without them, and whether
they are on now. -/
@[simps]
def State.gated (st : State) (compatibility extensions : Bool) : State :=
  { st with config := { st.config with compatibility }, extensions }

/-- The scope with another setting of the extensions. -/
def Scope.gated (sc : Scope) (compatibility extensions : Bool) : Scope :=
  { sc with state := sc.state.gated compatibility extensions }

/-- The words that have a meaning only while the extensions are on. -/
def extensionWords : List String := ["RESEED", "RANDINT", "RANDBYTE", "RANDWORD", "RANDLONG"]

/-- The name that has a value only while the extensions are on. -/
def counterName : String := "__MACRO_COUNTER__"

/-- Whether a token is none of the words of the extensions, in either case. -/
def Token.IsPlain (t : Token) : Prop := Text.upper t.text ∉ extensionWords

/-! ## Functions that are called -/

/-- The functions of the extensions are among their words. -/
theorem Function.name_mem_extensionWords {f : Function} (h : f.isExtension = true) :
    f.name ∈ extensionWords := by
  cases f <;> revert h <;> decide

/-- The keywords of the extensions are among their words. -/
theorem Keyword.name_mem_extensionWords {k : Keyword} (h : k.isExtension = true) :
    k.name ∈ extensionWords := by
  cases k <;> revert h <;> decide

/-- Other words call the same function with every setting. -/
theorem Function.ofWord?_of_isPlain {t : Token} (h : t.IsPlain) (x y : Bool) :
    Function.ofWord? t.text x = Function.ofWord? t.text y := by
  unfold Function.ofWord?
  dsimp only
  cases hf : Function.all.find? fun f => f.name == Text.upper t.text with
  | none => rfl
  | some f =>
    have hname : f.name = Text.upper t.text := by simpa using List.find?_some hf
    have hplain : f.isExtension = false := by
      rw [Bool.eq_false_iff]
      intro hx
      exact h (hname ▸ Function.name_mem_extensionWords hx)
    simp [Option.filter, hplain]

namespace Expr

mutual

/-- The names of the functions that an expression calls. -/
def calls : Expr → List Token
  | .number _ | .string _ | .identifier _ => []
  | .unary _ _ e => e.calls
  | .binary _ _ l r => l.calls ++ r.calls
  | .call t args => t :: allCalls args
  | .bracket _ e => e.calls
  | .index _ b e => b.calls ++ e.calls

/-- The names of the functions that some expressions call. -/
def allCalls : List Expr → List Token
  | [] => []
  | e :: es => e.calls ++ allCalls es

end

/-- Whether an expression calls no function of the extensions. -/
def IsPlain (e : Expr) : Prop := ∀ t ∈ e.calls, t.IsPlain

/-- Whether none of some expressions calls a function of the extensions. -/
def AllPlain (es : List Expr) : Prop := ∀ t ∈ allCalls es, t.IsPlain

variable {t : Token} {e l r : Expr} {es : List Expr}

theorem isPlain_binary {op : BinaryOp} :
    (Expr.binary op t l r).IsPlain ↔ l.IsPlain ∧ r.IsPlain :=
  List.forall_mem_append

theorem isPlain_index : (Expr.index t l r).IsPlain ↔ l.IsPlain ∧ r.IsPlain :=
  List.forall_mem_append

/-- A call is plain if its word is none of the extensions and its arguments are plain. -/
theorem isPlain_call : (Expr.call t es).IsPlain ↔ t.IsPlain ∧ AllPlain es :=
  List.forall_mem_cons

theorem allPlain_cons : AllPlain (e :: es) ↔ e.IsPlain ∧ AllPlain es :=
  List.forall_mem_append

/-- Expressions are plain together if each of them is. -/
theorem allPlain_iff : AllPlain es ↔ ∀ e ∈ es, e.IsPlain := by
  induction es with
  | nil => simp [AllPlain, allCalls]
  | cons e es ih => rw [allPlain_cons, List.forall_mem_cons, ih]

end Expr

namespace State

variable (st : State) (c x : Bool)

@[simp] theorem scope_gated : (st.gated c x).scope = st.scope.gated c x := rfl

/-! ## Names and texts -/

variable {st}

/-- Every name but the counter is the same for every setting. -/
theorem lookup?_gated {name : String} (h : name ≠ counterName) :
    (st.gated c x).lookup? name = st.lookup? name := by
  have hpredefined : (st.gated c x).predefined? name = st.predefined? name := by
    -- Of the predefined names only the counter asks whether the extensions are on.
    unfold predefined?
    split
    · rfl
    · rfl
    · rfl
    · rfl
    · rfl
    · exact absurd rfl h
    · rfl
  rw [lookup?, hpredefined]
  rfl

/-- An interpolation of another name than the counter is the same for every setting. -/
theorem interpolate_gated {inner : List Char} (h : interpolatedName inner ≠ counterName) :
    (st.gated c x).interpolate inner = st.interpolate inner := by
  unfold interpolatedName at h
  unfold interpolate
  cases hs : Text.splitOnce? ':' inner with
  | none =>
    rw [hs] at h
    simp only [lookup?_gated c x h]
  | some parts =>
    rw [hs] at h
    simp only [lookup?_gated c x h]

/-- A pass over a text that does not interpolate the counter. -/
theorem substitutePass_gated {cs : List Char} (h : counterName ∉ interpolatedNames cs) :
    (st.gated c x).substitutePass cs = st.substitutePass cs := by
  have hescape : (st.gated c x).escapeText = st.escapeText := rfl
  -- The names are collected along the same recursion as the pass itself.
  fun_induction interpolatedNames cs with
  | case1 => simp only [substitutePass]
  | case2 => simp only [substitutePass]
  | case3 e rest ih => simp only [substitutePass, hescape, ih h]
  | case4 d rest hlone hescaped hopen close tail hfound hclose inner ih =>
    rw [List.mem_cons, not_or] at h
    rw [substitutePass.eq_4 _ d rest hlone hescaped, substitutePass.eq_4 _ d rest hlone hescaped,
      if_pos hopen, if_pos hopen, hfound]
    dsimp only
    rw [if_pos hclose, if_pos hclose, interpolate_gated c x (Ne.symm h.1), ih h.2]
  | case5 d rest hlone hescaped hopen close tail hfound hclose ih =>
    rw [substitutePass.eq_4 _ d rest hlone hescaped, substitutePass.eq_4 _ d rest hlone hescaped,
      if_pos hopen, if_pos hopen, hfound]
    dsimp only
    rw [if_neg hclose, if_neg hclose, ih h]
  | case6 d rest hlone hescaped hopen hfound ih =>
    rw [substitutePass.eq_4 _ d rest hlone hescaped, substitutePass.eq_4 _ d rest hlone hescaped,
      if_pos hopen, if_pos hopen, hfound]
    simp only [ih h]
  | case7 d rest hlone hescaped hopen ih =>
    rw [substitutePass.eq_4 _ d rest hlone hescaped, substitutePass.eq_4 _ d rest hlone hescaped,
      if_neg hopen, if_neg hopen, ih h]

/-- Passes that never interpolate the counter, up to the limit. -/
theorem settle_gated {left : Nat} (done : Nat) {cs : List Char}
    (h : counterName ∉ st.settleLookups left cs) :
    (st.gated c x).settle left done cs = st.settle left done cs := by
  induction left generalizing done cs with
  | zero =>
    rw [settleLookups, List.mem_append, not_or] at h
    simp only [settle, substitutePass_gated c x h.1]
  | succ left ih =>
    rw [settleLookups, List.mem_append, not_or] at h
    simp only [settle, substitutePass_gated c x h.1]
    cases hchanged : (st.substitutePass cs).changed with
    | false => rfl
    | true =>
      simp only [hchanged, Bool.not_true, Bool.false_eq_true, if_false] at h
      simp only [ih (done + 1) h.2]

/-- A literal that never interpolates the counter has the same text for every setting. -/
theorem expandString_gated {literal : String} (h : counterName ∉ st.stringLookups literal) :
    (st.gated c x).expandString literal = st.expandString literal := by
  have hsettle : (st.gated c x).settle ((st.gated c x).config.maxSubstitutions - 1) 0
      (unquote literal.toList) = st.settle (st.config.maxSubstitutions - 1) 0
        (unquote literal.toList) := settle_gated c x 0 h
  rw [expandString, expandString, hsettle]

end State

namespace Scope

open Sm83Asm.Expr

variable {sc : Scope} (c x : Bool)

@[simp] theorem state_gated : (sc.gated c x).state = sc.state.gated c x := rfl

/-! ## Places -/

/-- The place of a name other than the counter. -/
theorem placeOf?_gated {name : String} (h : counterName ∉ placeLookups name) :
    (sc.gated c x).placeOf? name = sc.placeOf? name := by
  unfold placeLookups at h
  unfold placeOf?
  split
  · rfl
  · rename_i hname
    rw [if_neg hname, List.mem_singleton] at h
    rw [state_gated, State.lookup?_gated c x (Ne.symm h)]
    rfl

theorem location?_gated {e : Expr} (h : counterName ∉ locationLookups e) :
    (sc.gated c x).location? e = sc.location? e := by
  cases e with
  | identifier t => exact placeOf?_gated c x h
  | _ => rfl

theorem distance?_gated {left right : Expr} (h : counterName ∉ sc.distanceLookups left right) :
    (sc.gated c x).distance? left right = sc.distance? left right := by
  rw [distanceLookups, List.mem_append, not_or] at h
  unfold distance?
  rw [location?_gated c x h.1]
  cases hl : sc.location? left with
  | none => rfl
  | some place =>
    rw [hl, Option.isSome_some, if_pos rfl] at h
    rw [location?_gated c x h.2]

/-- The difference of two places is known for every setting or for none. -/
theorem difference?_gated {e : Expr} (h : counterName ∉ sc.differenceLookups e) :
    (sc.gated c x).difference? e = sc.difference? e := by
  unfold differenceLookups at h
  unfold difference?
  split
  · exact distance?_gated c x h
  · rfl

/-! ## Values -/

mutual

/-- An expression without a call of the extensions is constant for every setting or for none. -/
theorem isConstant_gated :
    ∀ {e : Expr}, e.IsPlain → counterName ∉ sc.constancyLookups e →
      (sc.gated c x).isConstant e = sc.isConstant e
  | .number _, _, _ => rfl
  | .string _, _, _ => rfl
  | .identifier t, _, hn => by
    simp only [constancyLookups, placeLookups] at hn
    unfold isConstant
    cases ht : t.text == "@" with
    | true =>
      rw [bne, ht]
      rfl
    | false =>
      rw [ht, if_neg (by simp), List.mem_singleton] at hn
      rw [state_gated, State.lookup?_gated c x (Ne.symm hn)]
  | .unary _ _ e, hp, hn => isConstant_gated (e := e) hp hn
  | .binary op t l r, hp, hn => by
    obtain ⟨hl, hr⟩ := isPlain_binary.1 hp
    rw [constancyLookups, List.mem_append, not_or] at hn
    rw [isConstant, isConstant, difference?_gated c x hn.1]
    cases hd : (sc.difference? (.binary op t l r)).isSome with
    | true => rfl
    | false =>
      rw [hd, if_neg (by simp), List.mem_append, not_or] at hn
      rw [isConstant_gated hl hn.2.1]
      -- The right operand looks up names only where the left one is constant.
      cases hc : sc.isConstant l with
      | false => rfl
      | true =>
        rw [hc, if_pos rfl] at hn
        rw [isConstant_gated hr hn.2.2]
  | .call t args, hp, hn => by
    obtain ⟨ht, hargs⟩ := isPlain_call.1 hp
    rw [constancyLookups] at hn
    rw [isConstant, isConstant, Function.ofWord?_of_isPlain ht _ sc.state.extensions]
    cases hf : Function.ofWord? t.text sc.state.extensions with
    | none => rfl
    | some f =>
      rw [hf] at hn
      dsimp only at hn ⊢
      cases ha : f.isAlwaysConstant with
      | true => rfl
      | false =>
        cases hl : f.isLinkTime with
        | true => rfl
        | false =>
          rw [ha, hl, if_neg (by simp)] at hn
          rw [allConstant_gated hargs hn]
  | .bracket _ e, hp, hn => isConstant_gated (e := e) hp hn
  | .index t b e, hp, hn => by
    obtain ⟨hb, he⟩ := isPlain_index.1 hp
    rw [constancyLookups, List.mem_append, not_or] at hn
    rw [isConstant, isConstant, isConstant_gated hb hn.1]
    cases hc : sc.isConstant b with
    | false => rfl
    | true =>
      rw [hc, if_pos rfl] at hn
      rw [isConstant_gated he hn.2]

theorem allConstant_gated :
    ∀ {es : List Expr}, AllPlain es → counterName ∉ sc.allConstancyLookups es →
      (sc.gated c x).allConstant es = sc.allConstant es
  | [], _, _ => rfl
  | e :: es, hp, hn => by
    obtain ⟨he, hes⟩ := allPlain_cons.1 hp
    rw [allConstancyLookups, List.mem_append, not_or] at hn
    rw [allConstant, allConstant, isConstant_gated he hn.1]
    cases hc : sc.isConstant e with
    | false => rfl
    | true =>
      rw [hc, if_pos rfl] at hn
      rw [allConstant_gated hes hn.2]

end

/-- A word that is none of the extensions calls the same function for every setting. -/
theorem callee_gated {t : Token} (h : t.IsPlain) (count : Nat) :
    (sc.gated c x).callee t count = sc.callee t count := by
  unfold callee
  rw [Function.ofWord?_of_isPlain h _ sc.state.extensions]

mutual

/-- An expression without a call of the extensions has the same value for every setting. -/
theorem value_gated :
    ∀ {e : Expr}, e.IsPlain → counterName ∉ sc.valueLookups e →
      (sc.gated c x).value e = sc.value e
  | .number _, _, _ => rfl
  | .string t, _, hn => by
    rw [value, value, state_gated, State.expandString_gated c x hn]
  | .identifier t, _, hn => by
    rw [valueLookups, List.mem_cons, not_or] at hn
    rw [value, value, state_gated, State.lookup?_gated c x (Ne.symm hn.1)]
    cases hv : sc.state.lookup? t.text with
    | some value => rfl
    | none =>
      rw [hv, if_neg (by simp)] at hn
      rw [placeOf?_gated c x hn.2]
  | .unary op t e, hp, hn => by
    rw [value, value, value_gated (e := e) hp hn]
    rfl
  | .binary op t l r, hp, hn => by
    obtain ⟨hl, hr⟩ := isPlain_binary.1 hp
    rw [valueLookups, List.mem_append, not_or] at hn
    rw [value, value, difference?_gated c x hn.1]
    cases hd : sc.difference? (.binary op t l r) with
    | some n => rfl
    | none =>
      rw [hd, if_neg (by simp), List.mem_append, not_or] at hn
      rw [value_gated hl hn.2.1, value_gated hr hn.2.2]
      rfl
  | .call t args, hp, hn => by
    obtain ⟨ht, hargs⟩ := isPlain_call.1 hp
    rw [valueLookups] at hn
    rw [value, value, callee_gated c x ht]
    cases hf : sc.callee t args.length with
    | error cause => rfl
    | ok f =>
      rw [hf] at hn
      dsimp only at hn ⊢
      split
      · rfl
      · rename_i hlink
        rw [if_neg hlink] at hn
        split
        · rw [allConstant_gated c x hargs hn]
        · rfl
        · rename_i hconst hdefined
          have hn' : counterName ∉ sc.argumentLookups args := by
            revert hn
            split
            · exact absurd rfl hconst
            · exact absurd rfl (hdefined _ rfl)
            · exact id
          rw [argumentValues_gated f 0 hargs hn']
          rfl
  | .bracket _ e, hp, hn => value_gated (e := e) hp hn
  | .index t b e, hp, hn => value_gated (e := e) (isPlain_index.1 hp).2 hn

/-- The arguments of a function have the same values for every setting. -/
theorem argumentValues_gated (f : Function) (i : Nat) :
    ∀ {es : List Expr}, AllPlain es → counterName ∉ sc.argumentLookups es →
      (sc.gated c x).argumentValues f i es = sc.argumentValues f i es
  | [], _, _ => rfl
  | e :: es, hp, hn => by
    obtain ⟨he, hes⟩ := allPlain_cons.1 hp
    rw [argumentLookups, List.mem_append, not_or] at hn
    rw [argumentValues, argumentValues, value_gated he hn.1,
      argumentValues_gated f (i + 1) hes hn.2]
    rfl

end

section Expressions

variable {e : Expr} (hp : e.IsPlain)

include hp

/-- A value of a certain kind is the same for every setting. -/
theorem evaluate_gated (hn : counterName ∉ sc.evaluateLookups e) (expected : Expected) :
    (sc.gated c x).evaluate expected e = sc.evaluate expected e := by
  rw [evaluateLookups, List.mem_append, not_or] at hn
  unfold evaluate
  rw [isConstant_gated c x hp hn.1]
  cases hc : sc.isConstant e with
  | true =>
    rw [hc, if_pos rfl] at hn
    rw [if_pos rfl, if_pos rfl, value_gated c x hp hn.2]
    rfl
  | false =>
    rw [hc, if_neg (by simp)] at hn
    rw [if_neg (by simp), if_neg (by simp)]
    cases e with
    | identifier t => simp only [placeOf?_gated c x hn.2]
    | _ => rfl

theorem number_gated (hn : counterName ∉ sc.evaluateLookups e) :
    (sc.gated c x).number e = sc.number e := by
  rw [number, number, evaluate_gated c x hp hn]

theorem text_gated (hn : counterName ∉ sc.evaluateLookups e) :
    (sc.gated c x).text e = sc.text e := by
  rw [text, text, evaluate_gated c x hp hn]

/-- What is computed before linking is the same for every setting. -/
theorem constant?_gated (hn : counterName ∉ sc.constantLookups e) :
    (sc.gated c x).constant? e = sc.constant? e := by
  rw [constantLookups, List.mem_append, not_or] at hn
  rw [constant?, constant?, isConstant_gated c x hp hn.1]
  cases hc : sc.isConstant e with
  | false => rfl
  | true =>
    rw [hc, if_pos rfl] at hn
    rw [number_gated c x hp hn.2]

end Expressions

/-! ## Programs for the linker -/

/-- Questions to the linker are the same for every setting. -/
theorem compileQuery_gated {f : Function} {args : List Expr} (hp : AllPlain args)
    (hn : counterName ∉ sc.queryLookups f args) :
    (sc.gated c x).compileQuery f args = sc.compileQuery f args := by
  cases args with
  | nil => rfl
  | cons e es =>
    obtain ⟨he, -⟩ := allPlain_cons.1 hp
    cases e with
    | identifier t =>
      unfold compileQuery
      dsimp only
      cases hh : ofHere? f with
      | some here => rfl
      | none =>
        rw [queryLookups, hh, if_neg (by simp)] at hn
        rw [text_gated c x he hn]
    | _ =>
      have htext := text_gated c x he hn
      simp only [compileQuery, htext]

/-- The program for the linker is the same for every setting. -/
theorem compile_gated {e : Expr} (hp : e.IsPlain) (hn : counterName ∉ sc.compileLookups e)
    (location : Nat) : (sc.gated c x).compile location e = sc.compile location e := by
  induction e using compile_induction sc with
  | constant e hc =>
    rw [compileLookups.eq_def, List.mem_append, not_or, if_pos hc] at hn
    have hc' := (isConstant_gated c x hp hn.1).trans hc
    rw [compile_of_isConstant hc, compile_of_isConstant hc', number_gated c x hp hn.2]
  | name t hc =>
    rw [compileLookups, List.mem_append, not_or] at hn
    have hc' := isConstant_gated c x hp hn.1
    rw [compile, compile, hc', if_neg hc, if_neg hc]
    rfl
  | unary op t e hc ih =>
    rw [compileLookups, List.mem_append, not_or, if_neg hc] at hn
    rw [compile, compile, isConstant_gated c x hp hn.1, if_neg hc, if_neg hc, ih hp hn.2]
  | binary op t l r hc ihl ihr =>
    obtain ⟨hl, hr⟩ := isPlain_binary.1 hp
    rw [compileLookups, List.mem_append, not_or, if_neg hc] at hn
    obtain ⟨hnl, hnr⟩ := not_or.1 (mt List.mem_append.2 hn.2)
    rw [compile, compile, isConstant_gated c x hp hn.1, if_neg hc, if_neg hc, ihl hl hnl,
      ihr hr hnr]
  | unknown t args cause hc hf =>
    have ht := (isPlain_call.1 hp).1
    rw [compileLookups, List.mem_append, not_or, if_neg hc] at hn
    rw [compile, compile, isConstant_gated c x hp hn.1, if_neg hc, if_neg hc, callee_gated c x ht,
      hf]
  | high t e hc hf ih =>
    obtain ⟨ht, he⟩ := isPlain_call.1 hp
    rw [compileLookups, List.mem_append, not_or, if_neg hc] at hn
    simp only [hf] at hn
    rw [compile, compile, isConstant_gated c x hp hn.1, if_neg hc, if_neg hc, callee_gated c x ht]
    simp only [hf, ih (allPlain_cons.1 he).1 hn.2]
  | low t e hc hf ih =>
    obtain ⟨ht, he⟩ := isPlain_call.1 hp
    rw [compileLookups, List.mem_append, not_or, if_neg hc] at hn
    simp only [hf] at hn
    rw [compile, compile, isConstant_gated c x hp hn.1, if_neg hc, if_neg hc, callee_gated c x ht]
    simp only [hf, ih (allPlain_cons.1 he).1 hn.2]
  | query t args f hc hf hl =>
    obtain ⟨ht, hargs⟩ := isPlain_call.1 hp
    rw [compileLookups, List.mem_append, not_or, if_neg hc] at hn
    have hc' : ¬ (sc.gated c x).isConstant (.call t args) = true := by
      rwa [isConstant_gated c x hp hn.1]
    -- No function that asks the linker is `HIGH` or `LOW`, so its question is all that looks up
    -- names.
    have hquery : counterName ∉ sc.queryLookups f args := by
      have hrest := hn.2
      rw [hf] at hrest
      dsimp only at hrest
      split at hrest
      · exact absurd hl (by decide)
      · exact absurd hl (by decide)
      · rwa [if_pos hl] at hrest
    rw [compile_of_isLinkTime hc hf hl,
      compile_of_isLinkTime hc' ((callee_gated c x ht _).trans hf) hl,
      compileQuery_gated c x hargs hquery]
  | ordinary t args f hc hf hl hhigh hlow =>
    have ht := (isPlain_call.1 hp).1
    rw [compileLookups, List.mem_append, not_or, if_neg hc] at hn
    have hc' : ¬ (sc.gated c x).isConstant (.call t args) = true := by
      rwa [isConstant_gated c x hp hn.1]
    rw [compile_of_ordinary hc hf hl hhigh hlow,
      compile_of_ordinary hc' ((callee_gated c x ht _).trans hf) hl hhigh hlow]
  | bracket t e hc ih =>
    rw [compileLookups, List.mem_append, not_or, if_neg hc] at hn
    rw [compile, compile, isConstant_gated c x hp hn.1, if_neg hc, if_neg hc, ih hp hn.2]
  | index t b e hc ih =>
    rw [compileLookups, List.mem_append, not_or, if_neg hc] at hn
    rw [compile, compile, isConstant_gated c x hp hn.1, if_neg hc, if_neg hc,
      ih (isPlain_index.1 hp).2 hn.2]

section Patches

variable {e : Expr} (hp : e.IsPlain)

include hp

/-- What is left to the linker is the same for every setting. -/
theorem deferWith_gated (hn : counterName ∉ sc.deferLookups e) (check : Link.Program)
    (kind : PatchKind) (offset : Nat) :
    (sc.gated c x).deferWith check kind offset e = sc.deferWith check kind offset e := by
  unfold deferLookups at hn
  unfold deferWith
  rw [state_gated, State.gated_current]
  cases hs : sc.state.current with
  | none => rfl
  | some place =>
    rw [hs, Option.isSome_some, if_pos rfl] at hn
    simp only [compile_gated c x hp hn]
    rfl

/-- A value is computed for every setting, or left to the linker for every setting. -/
theorem valueOrPatch_gated (hn : counterName ∉ sc.patchLookups e) (check : Link.Program)
    (kind : PatchKind) (offset : Nat) (expected : Expected) :
    (sc.gated c x).valueOrPatch check kind offset expected e =
      sc.valueOrPatch check kind offset expected e := by
  rw [patchLookups, List.mem_append, not_or] at hn
  rw [valueOrPatch, valueOrPatch, isConstant_gated c x hp hn.1]
  cases hc : sc.isConstant e with
  | true =>
    rw [hc, if_pos rfl] at hn
    rw [if_pos rfl, if_pos rfl, evaluate_gated c x hp hn.2]
  | false =>
    rw [hc, if_neg (by simp)] at hn
    simp only [Bool.false_eq_true, if_false, deferWith_gated c x hp hn.2]

theorem numberOrPatch_gated (hn : counterName ∉ sc.patchLookups e) (kind : PatchKind)
    (offset : Nat) :
    (sc.gated c x).numberOrPatch kind offset e = sc.numberOrPatch kind offset e := by
  rw [numberOrPatch, numberOrPatch, valueOrPatch_gated c x hp hn]

/-- An operand of the top page is checked by the linker for every setting. -/
theorem topPageOrPatch_gated (hn : counterName ∉ sc.patchLookups e) (offset : Nat) :
    (sc.gated c x).topPageOrPatch offset e = sc.topPageOrPatch offset e := by
  rw [topPageOrPatch, topPageOrPatch, valueOrPatch_gated c x hp hn]

end Patches

/-! ## Data -/

/-- An item of data is the same for every setting. -/
theorem dataItem_gated {e : Expr} (hp : e.IsPlain) (keyword : Keyword) {offset : Nat}
    (hn : counterName ∉ ({ sc with pinned := some offset } : Scope).patchLookups e) :
    (sc.gated c x).dataItem keyword offset e = sc.dataItem keyword offset e := by
  have hvalue := valueOrPatch_gated c x hp hn
  have hnumber := numberOrPatch_gated c x hp hn
  have hpinned : ({ sc.gated c x with pinned := some offset } : Scope) =
      ({ sc with pinned := some offset } : Scope).gated c x := rfl
  unfold dataItem
  simp only [hpinned, hvalue, hnumber]
  rfl

/-- Items of data are the same for every setting, each in the state that the one before it leaves.
-/
theorem dataItems_gated {es : List Expr} (hp : AllPlain es) (keyword : Keyword) {offset : Nat}
    {s : Emission} (hn : counterName ∉ sc.dataLookups keyword s offset es) :
    (sc.gated c x).dataItems keyword offset es s = sc.dataItems keyword offset es s := by
  induction es generalizing offset s with
  | nil => rfl
  | cons e es ih =>
    obtain ⟨he, hes⟩ := allPlain_cons.1 hp
    rw [dataLookups, List.mem_append, not_or] at hn
    simp only [dataItems, Act.bind_apply, dataItem_gated c x he keyword hn.1, ih hes hn.2]

/-! ## Instructions -/

/-- A constant is in a range for every setting or for none. -/
theorem constantIn_gated {e : Expr} (hp : e.IsPlain) (hn : counterName ∉ sc.constantLookups e)
    (test : Int32 → Bool) : (sc.gated c x).constantIn test e = sc.constantIn test e := by
  rw [constantIn, constantIn, constant?_gated c x hp hn]

/-- A test that is made under a condition looks up nothing where the condition fails. -/
theorem constantIn_ite_gated {e : Expr} (hp : e.IsPlain) {asked : Bool}
    (hn : counterName ∉ if asked then sc.constantLookups e else []) (test : Int32 → Bool)
    (other : Act Random Bool) :
    (if asked then (sc.gated c x).constantIn test e else other) =
      if asked then sc.constantIn test e else other := by
  cases asked with
  | true => exact constantIn_gated c x hp hn test
  | false => rfl

theorem isPointer_gated {p : Pointer} {e : Expr} (hp : e.IsPlain)
    (hn : counterName ∉ sc.pointerLookups p e) :
    (sc.gated c x).isPointer p e = sc.isPointer p e := by
  unfold pointerLookups at hn
  unfold isPointer
  split
  · rfl
  · exact constantIn_ite_gated c x (isPlain_binary.1 hp).1 hn _ _
  · rfl

/-- What stands in brackets calls no more than the whole. -/
theorem isPlain_of_bracketed? {e inner : Expr} (hp : e.IsPlain)
    (h : e.bracketed? = some inner) : inner.IsPlain := by
  cases e with
  | bracket t e =>
    obtain rfl := Option.some.inj h
    exact hp
  | _ => exact absurd h (by simp [bracketed?])

/-- An operand fits a pattern for every setting or for none. -/
theorem fits_gated {pattern : Pattern} {e : Expr} (hp : e.IsPlain)
    (hn : counterName ∉ sc.fitsLookups pattern e) :
    (sc.gated c x).fits pattern e = sc.fits pattern e := by
  cases pattern with
  | ind p =>
    unfold fits
    unfold fitsLookups at hn
    dsimp only at hn ⊢
    cases hb : e.bracketed? with
    | none => rfl
    | some inner =>
      rw [hb] at hn
      exact isPointer_gated c x (isPlain_of_bracketed? hp hb) hn
  | u3 => exact constantIn_ite_gated c x hp hn _ _
  | vector => exact constantIn_ite_gated c x hp hn _ _
  | ldhN8 =>
    unfold fits
    unfold fitsLookups at hn
    dsimp only at hn ⊢
    cases hb : e.bracketed? with
    | none => rfl
    | some inner =>
      rw [hb] at hn
      dsimp only at hn ⊢
      split
      · rename_i hfree
        rw [if_pos hfree] at hn
        rw [constant?_gated c x (isPlain_of_bracketed? hp hb) hn]
      · rfl
  | highN8 =>
    unfold fits
    unfold fitsLookups at hn
    dsimp only at hn ⊢
    cases hb : e.bracketed? with
    | none => rfl
    | some inner =>
      rw [hb] at hn
      dsimp only at hn ⊢
      exact constantIn_ite_gated c x (isPlain_of_bracketed? hp hb) hn _ _
  | _ => rfl

/-- Operands fit a variant for every setting or for none. -/
theorem fitAll_gated {ps : List Pattern} {es : List Expr} (hp : AllPlain es) {r : Random}
    (hn : counterName ∉ sc.fitAllLookups r ps es) :
    (sc.gated c x).fitAll ps es r = sc.fitAll ps es r := by
  induction ps generalizing es r with
  | nil => cases es <;> rfl
  | cons p ps ih =>
    cases es with
    | nil => rfl
    | cons e es =>
      obtain ⟨he, hes⟩ := allPlain_cons.1 hp
      rw [fitAllLookups, List.mem_append, not_or] at hn
      simp only [fitAll, Act.bind_apply, fits_gated c x he hn.1]
      cases hv : (sc.fits p e r).value with
      | false => simp only [Bool.false_eq_true, if_false]
      | true =>
        rw [hv, if_pos rfl] at hn
        simp only [if_true, ih hes hn.2]

/-- The first variant that fits is the same for every setting. -/
theorem firstFit_gated {args : List Expr} (hp : AllPlain args) {vs : List Variant} {r : Random}
    (hn : counterName ∉ sc.firstFitLookups args r vs) :
    (sc.gated c x).firstFit args vs r = sc.firstFit args vs r := by
  induction vs generalizing r with
  | nil => rfl
  | cons v vs ih =>
    unfold firstFitLookups at hn
    unfold firstFit
    split
    · rename_i hlength
      rw [if_pos hlength, List.mem_append, not_or] at hn
      simp only [Act.bind_apply, fitAll_gated c x hp hn.1]
      cases hv : (sc.fitAll v.operands args r).value with
      | true => simp only [if_true]
      | false =>
        rw [hv, if_neg (by simp)] at hn
        simp only [Bool.false_eq_true, if_false, ih hn.2]
    · rename_i hlength
      rw [if_neg hlength] at hn
      exact ih hn

/-- The variant of an instruction is the same for every setting. -/
theorem selectVariant_gated {mnemonic : String} {args : List Expr} (hp : AllPlain args)
    {r : Random} (hn : counterName ∉ sc.variantLookups mnemonic args r) :
    (sc.gated c x).selectVariant mnemonic args r = sc.selectVariant mnemonic args r := by
  unfold variantLookups at hn
  unfold selectVariant
  cases hv : variants? (Text.lower mnemonic) with
  | none => rfl
  | some variants =>
    rw [hv] at hn
    exact firstFit_gated c x hp hn

/-- The place of a jump target is the same for every setting. -/
theorem target?_gated {e : Expr} (hp : e.IsPlain) {s : Random}
    (hn : counterName ∉ sc.targetLookups s e) :
    (sc.gated c x).target? e s = sc.target? e s := by
  induction e using target?.induct with
  | case1 t =>
    unfold target?
    rw [placeOf?_gated c x hn]
    rfl
  | case2 op t l r h ih =>
    obtain ⟨hl, hr⟩ := isPlain_binary.1 hp
    rw [targetLookups, if_pos h, List.mem_append, not_or] at hn
    simp only [target?, h, if_true, Act.bind_apply, ih hl hn.1]
    cases hv : (sc.target? l s).value with
    | none => dsimp only
    | some start =>
      rw [hv, Option.isSome_some, if_pos rfl, List.mem_append, not_or] at hn
      dsimp only
      rw [isConstant_gated c x hr hn.2.1]
      cases hc : sc.isConstant r with
      | false => simp only [Bool.false_eq_true, if_false]
      | true =>
        rw [hc, if_pos rfl] at hn
        simp only [if_true, number_gated c x hr hn.2.2]
  | case3 op t l r h => rw [target?, target?, if_neg h, if_neg h]
  | case4 e hname hbinary =>
    cases e with
    | identifier t => exact (hname t rfl).elim
    | binary op t l r => exact (hbinary op t l r rfl).elim
    | _ => rfl

theorem jumpTarget?_gated {e : Expr} (hp : e.IsPlain) {s : Random}
    (htarget : counterName ∉ sc.targetLookups s e)
    (hconstant : counterName ∉
      if (sc.target? e s).value.isSome then [] else sc.constantLookups e) :
    (sc.gated c x).jumpTarget? e s = sc.jumpTarget? e s := by
  simp only [jumpTarget?, Act.bind_apply, target?_gated c x hp htarget]
  cases hv : (sc.target? e s).value with
  | some target => rfl
  | none =>
    rw [hv, if_neg (by simp)] at hconstant
    simp only [constant?_gated c x hp hconstant]
    rfl

/-- A jump is resolved for every setting or for none, and to the same byte. -/
theorem jumpOperand_gated {e : Expr} (hp : e.IsPlain) {s : Emission} (offset : Nat)
    (hn : counterName ∉ sc.jumpLookups s.linkage.random e) :
    (sc.gated c x).jumpOperand offset e s = sc.jumpOperand offset e s := by
  rw [jumpLookups, List.mem_append, List.mem_append, not_or, not_or] at hn
  obtain ⟨⟨htarget, hconstant⟩, hdefer⟩ := hn
  replace htarget := jumpTarget?_gated c x hp htarget hconstant
  simp only [jumpOperand, Act.bind_apply, Act.checked_apply, Act.drawing, Act.linking_apply,
    Act.evaluating_apply, htarget]
  cases hv : (sc.jumpTarget? e s.linkage.random).value with
  | some target => rfl
  | none =>
    rw [hv, if_neg (by simp)] at hdefer
    simp only [defer, deferWith_gated c x hp hdefer]

theorem topPageOperand_gated {e : Expr} (hp : e.IsPlain) (offset : Nat)
    (hconstant : counterName ∉ sc.constantLookups e)
    (hpatch : counterName ∉ if sc.isConstant e then [] else sc.patchLookups e) :
    (sc.gated c x).topPageOperand offset e = sc.topPageOperand offset e := by
  funext s
  simp only [topPageOperand, Act.bind_apply, Act.drawing, Act.linking_apply, Act.evaluating_apply,
    constant?_gated c x hp hconstant]
  cases hc : sc.isConstant e with
  | true =>
    have hsome : (sc.constant? e s.linkage.random).value.isSome = true := by
      simp [constant?, hc]
    obtain ⟨n, hn⟩ := Option.isSome_iff_exists.1 hsome
    rw [hn]
  | false =>
    rw [hc, if_neg (by simp)] at hpatch
    simp only [topPageOrPatch_gated c x hp hpatch]

/-- The code of an operand is the same for every setting. -/
theorem operandCode_gated {pattern : Pattern} {e : Expr} (hp : e.IsPlain) (offset : Nat)
    {s : Emission} (hn : counterName ∉ sc.operandLookups s.linkage.random pattern e) :
    (sc.gated c x).operandCode offset pattern e s = sc.operandCode offset pattern e s := by
  cases pattern with
  | reg r => rfl
  | cond condition => rfl
  | ind p => rfl
  | u3 => simp only [operandCode, number_gated c x hp hn]
  | vector => simp only [operandCode, number_gated c x hp hn]
  | n8 => simp only [operandCode, byteOperand, numberOrPatch_gated c x hp hn]
  | e8 => simp only [operandCode, byteOperand, numberOrPatch_gated c x hp hn]
  | n16 => simp only [operandCode, wordOperand, numberOrPatch_gated c x hp hn]
  | spE8 =>
    cases e with
    | binary op t l r =>
      have hr := (isPlain_binary.1 hp).2
      have hshift : (if op == .sub then Expr.unary .neg t r else r).IsPlain := by
        split
        · exact hr
        · exact hr
      simp only [operandCode, byteOperand, numberOrPatch_gated c x hshift hn]
    | _ => rfl
  | indN16 =>
    unfold operandLookups at hn
    unfold operandCode
    dsimp only at hn ⊢
    cases hb : e.bracketed? with
    | none => rfl
    | some inner =>
      rw [hb] at hn
      simp only [wordOperand, numberOrPatch_gated c x (isPlain_of_bracketed? hp hb) hn]
  | ldhN8 =>
    unfold operandLookups at hn
    unfold operandCode
    dsimp only at hn ⊢
    cases hb : e.bracketed? with
    | none => rfl
    | some inner =>
      rw [hb, List.mem_append, not_or] at hn
      dsimp only
      rw [topPageOperand_gated c x (isPlain_of_bracketed? hp hb) offset hn.1 hn.2]
  | highN8 =>
    unfold operandLookups at hn
    unfold operandCode
    dsimp only at hn ⊢
    cases hb : e.bracketed? with
    | none => rfl
    | some inner =>
      rw [hb, List.mem_append, not_or] at hn
      dsimp only
      rw [topPageOperand_gated c x (isPlain_of_bracketed? hp hb) offset hn.1 hn.2]
  | rel => simp only [operandCode, Act.bind_apply, jumpOperand_gated c x hp offset hn]

/-- The codes of operands are the same for every setting, each in the state that the one before it
leaves. -/
theorem operandCodes_gated {ps : List Pattern} {es : List Expr} (hp : AllPlain es) {offset : Nat}
    {s : Emission} (hn : counterName ∉ sc.operandsLookups s offset ps es) :
    (sc.gated c x).operandCodes offset ps es s = sc.operandCodes offset ps es s := by
  induction ps generalizing es offset s with
  | nil => cases es <;> rfl
  | cons p ps ih =>
    cases es with
    | nil => rfl
    | cons e es =>
      obtain ⟨he, hes⟩ := allPlain_cons.1 hp
      rw [operandsLookups, List.mem_append, not_or] at hn
      simp only [operandCodes, Act.bind_apply, operandCode_gated c x he offset hn.1, ih hes hn.2]

/-- An instruction without a call of the extensions is encoded in the same way for every setting. -/
theorem encode_gated {word : Token} {args : List Expr} (hp : AllPlain args) {s : Emission}
    (hn : counterName ∉ sc.encodeLookups s word args) :
    (sc.gated c x).encode word args s = sc.encode word args s := by
  rw [encodeLookups, List.mem_append, not_or] at hn
  have hselect : Act.drawing ((sc.gated c x).selectVariant (Text.lower word.text) args) s =
      Act.drawing (sc.selectVariant (Text.lower word.text) args) s := by
    simp only [Act.drawing, Act.linking_apply, Act.evaluating_apply,
      selectVariant_gated c x hp hn.1]
  simp only [encode, Act.bind_apply, hselect]
  cases hv : (Act.drawing (sc.selectVariant (Text.lower word.text) args) s).value with
  | none => rfl
  | some variant =>
    rw [hv] at hn
    have hcodes := operandCodes_gated c x hp hn.2
    have hoffset : (sc.gated c x).state.offset? = sc.state.offset? := rfl
    simp only [Act.bind_apply, hoffset, hcodes]
    rfl

end Scope

end Sm83Asm
