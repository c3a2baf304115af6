import Sm83Asm.Proofs.Link.Deferred

set_option autoImplicit false

/-!
# Forward references

A name may be used before it is defined, and the linker is told later what it stands for. So an
expression over names, numbers and the questions `BANK` and `SIZEOF` must not fail where it is
written, whatever its names turn out to be: a part that is constant already is computed without a
report, and every other part is compiled without one.

Main statements: `value_of_linkable`, `quiet_compile` and `valueOrPatch_of_linkable`.
-/

namespace Sm83Asm

namespace Act

variable {α β : Type}

/-- An action that reports nothing and draws no random number. -/
def Quiet (x : Act Linkage α) : Prop := ∀ s, (x s).reports = [] ∧ (x s).state.random = s.random

namespace Quiet

theorem pure (a : α) : (Pure.pure a : Act Linkage α).Quiet := fun _ => ⟨rfl, rfl⟩

theorem bind {x : Act Linkage α} {f : α → Act Linkage β} (hx : x.Quiet) (hf : ∀ a, (f a).Quiet) :
    (x >>= f).Quiet := by
  intro s
  obtain ⟨hreports, hrandom⟩ := hx s
  obtain ⟨hreports', hrandom'⟩ := hf (x s).value (x s).state
  rw [bind_apply]
  exact ⟨by rw [hreports, hreports', List.append_nil], hrandom'.trans hrandom⟩

end Quiet

end Act

namespace Scope

variable {sc : Scope}

/-! ## Expressions that the linker can be left with -/

/-- A name that the linker can be asked for: `@`, or a name that is not local to a label and does
not stand for a text. -/
def IsFree (sc : Scope) (name : String) : Prop :=
  name = "@" ∨ name.toList.head? ≠ some '.' ∧ ∀ s, sc.state.lookup? name ≠ some (.text s)

/-- Expressions over numbers and free names. -/
inductive Linkable (sc : Scope) : Expr → Prop
  | number {t : Token} (h : (Numeral.value? sc.state.options t.text).isSome = true) :
      Linkable sc (.number t)
  | name {t : Token} (h : sc.IsFree t.text) : Linkable sc (.identifier t)
  | unary (op : UnaryOp) (t : Token) {e : Expr} (h : Linkable sc e) : Linkable sc (.unary op t e)
  /-- Only a division can fail for its operands. -/
  | binary {op : BinaryOp} (hdiv : op ≠ .div) (hmod : op ≠ .mod) (t : Token) {l r : Expr}
      (hl : Linkable sc l) (hr : Linkable sc r) : Linkable sc (.binary op t l r)
  /-- `HIGH` and `LOW`. -/
  | byte {f : Function} (hf : f = .high ∨ f = .low) {t : Token}
      (hword : Function.ofWord? t.text sc.state.extensions = some f) {e : Expr}
      (h : Linkable sc e) : Linkable sc (.call t [e])
  /-- `BANK` and `SIZEOF`. -/
  | query {f : Function} (hf : f = .bank ∨ f = .sizeof) {t : Token}
      (hword : Function.ofWord? t.text sc.state.extensions = some f) {name : Token}
      (h : sc.IsFree name.text) : Linkable sc (.call t [.identifier name])

theorem callee_of_accepts {f : Function} {t : Token} {count : Nat}
    (hword : Function.ofWord? t.text sc.state.extensions = some f)
    (h : f.arity.accepts count = true) : sc.callee t count = .ok f := by
  rw [callee, hword]
  exact if_pos h

theorem accepts_one {f : Function} (hf : (f = .high ∨ f = .low) ∨ f = .bank ∨ f = .sizeof) :
    f.arity.accepts 1 = true := by
  rcases hf with (rfl | rfl) | rfl | rfl <;> rfl

/-- A name that is asked for has a full name. -/
theorem qualify_of_isFree {name : String} (h : sc.IsFree name) (hat : name ≠ "@") :
    sc.state.qualify name = some name := by
  obtain ⟨hdot, -⟩ := h.resolve_left hat
  unfold State.qualify
  split
  · rename_i hname
    rw [hname] at hdot
    exact absurd rfl hdot
  · rfl

/-! ## Constant parts -/

/-- A number as the only argument of a function that wants one. -/
theorem argumentValues_number {f : Function} {e : Expr} {n : Int32} {r : Random}
    (h : sc.value e r = ⟨.number n, r, []⟩) (hf : f.takesText 0 = false) :
    sc.argumentValues f 0 [e] r = ⟨[.number n], r, []⟩ := by
  rw [argumentValues, Act.bind_apply, h]
  simp only [hf, Bool.false_eq_true, if_false, argumentValues]
  rfl

/-- A constant part has a number, which is found without a report. -/
theorem value_of_linkable {e : Expr} (h : sc.Linkable e) (hc : sc.isConstant e = true) :
    ∃ n, ∀ r, sc.value e r = ⟨.number n, r, []⟩ := by
  induction h with
  | number h =>
    obtain ⟨n, hn⟩ := Option.isSome_iff_exists.1 h
    exact ⟨n, fun r => by rw [value, hn]; rfl⟩
  | @name t h =>
    rw [isConstant, Bool.and_eq_true, bne_iff_ne] at hc
    obtain ⟨v, hv⟩ := Option.isSome_iff_exists.1 hc.2
    cases v with
    | number n => exact ⟨n, fun r => by rw [value, hv]; rfl⟩
    | text s =>
      exact absurd hv ((h.resolve_left hc.1).2 s)
  | unary op t _ ih =>
    rw [isConstant] at hc
    obtain ⟨n, hn⟩ := ih hc
    refine ⟨op.apply n, fun r => ?_⟩
    rw [value, Act.bind_apply, hn]
    rfl
  | @binary op hdiv hmod t l r _ _ ihl ihr =>
    rw [isConstant] at hc
    cases hd : sc.difference? (.binary op t l r) with
    | some n => exact ⟨n, fun r => by rw [value, hd]; rfl⟩
    | none =>
      rw [hd, Option.isSome_none, Bool.false_or, Bool.and_eq_true] at hc
      obtain ⟨a, ha⟩ := ihl hc.1
      obtain ⟨b, hb⟩ := ihr hc.2
      obtain ⟨n, hn⟩ : ∃ n, op.apply? a b = some n := by
        cases op <;> first | exact ⟨_, rfl⟩ | exact absurd rfl hdiv | exact absurd rfl hmod
      refine ⟨n, fun r => ?_⟩
      rw [value, hd]
      simp [ha, hb, combine, toNumber, coerce, Value.toNumber, hn]
  | @byte f hf t hword e _ ih =>
    have hcallee : sc.callee t [e].length = .ok f :=
      callee_of_accepts hword (accepts_one (.inl hf))
    rw [isConstant, hword] at hc
    have he : sc.isConstant e = true := by
      rcases hf with rfl | rfl <;> simpa [Function.isAlwaysConstant, Function.isLinkTime,
        allConstant] using hc
    obtain ⟨n, hn⟩ := ih he
    rcases hf with rfl | rfl
    · refine ⟨highByte n, fun r => ?_⟩
      rw [value_call_of_ordinary hcallee rfl rfl, Act.bind_apply, argumentValues_number (hn r) rfl]
      rfl
    · refine ⟨lowByte n, fun r => ?_⟩
      rw [value_call_of_ordinary hcallee rfl rfl, Act.bind_apply, argumentValues_number (hn r) rfl]
      rfl
  | query hf hword _ =>
    -- Only the linker knows the answer, so this is no constant.
    rw [isConstant, hword] at hc
    rcases hf with rfl | rfl <;> exact absurd hc (by simp [Function.isAlwaysConstant,
      Function.isLinkTime])

theorem quiet_number {e : Expr} (h : sc.Linkable e) (hc : sc.isConstant e = true) :
    (Act.evaluating (sc.number e)).Quiet := by
  obtain ⟨n, hn⟩ := value_of_linkable h hc
  intro s
  simp [number, evaluate, hc, hn, coerce]

theorem quiet_compile_of_isConstant (location : Nat) {e : Expr} (h : sc.Linkable e)
    (hc : sc.isConstant e = true) : (sc.compile location e).Quiet := by
  rw [compile_of_isConstant hc]
  exact (quiet_number h hc).bind fun n => .pure _

/-! ## Parts that are left to the linker -/

theorem quiet_symbol (name : String) : (sc.symbol name).Quiet := fun _ => ⟨rfl, rfl⟩

theorem quiet_place (name : String) (offset : Nat) : (sc.place name offset).Quiet :=
  fun _ => ⟨rfl, rfl⟩

theorem quiet_compileName (hopen : sc.state.current.isSome = true) (location : Nat) {t : Token}
    (h : sc.IsFree t.text) : (sc.compileName location t).Quiet := by
  unfold compileName
  split
  · obtain ⟨place, hplace⟩ := Option.isSome_iff_exists.1 hopen
    rw [hplace]
    exact (quiet_place place location).bind fun id => .pure _
  · rename_i hat
    rw [qualify_of_isFree h (by simpa using hat)]
    exact (quiet_symbol t.text).bind fun id => .pure _

theorem quiet_compileQuery {f : Function} (hf : f = .bank ∨ f = .sizeof) {t : Token}
    (h : sc.IsFree t.text) : (sc.compileQuery f [.identifier t]).Quiet := by
  obtain ⟨here, hhere⟩ : ∃ here, ofHere? f = some here := by
    rcases hf with rfl | rfl <;> exact ⟨_, rfl⟩
  simp only [compileQuery, hhere]
  split
  · exact .pure _
  · rename_i hat
    rw [qualify_of_isFree h (by simpa using hat)]
    exact (quiet_symbol t.text).bind fun id => .pure _

/-- In an open section every linkable expression is compiled without a report. -/
theorem quiet_compile (hopen : sc.state.current.isSome = true) (location : Nat) {e : Expr}
    (h : sc.Linkable e) : (sc.compile location e).Quiet := by
  -- What is constant is computed, and everything else is compiled from its parts.
  induction h with
  | number h => exact quiet_compile_of_isConstant location (.number h) rfl
  | @name t h =>
    by_cases hc : sc.isConstant (.identifier t) = true
    · exact quiet_compile_of_isConstant location (.name h) hc
    rw [compile, if_neg hc]
    exact quiet_compileName hopen location h
  | @unary op t e h ih =>
    by_cases hc : sc.isConstant (.unary op t e) = true
    · exact quiet_compile_of_isConstant location (.unary op t h) hc
    rw [compile, if_neg hc]
    exact ih.bind fun program => .pure _
  | @binary op hdiv hmod t l r hl hr ihl ihr =>
    by_cases hc : sc.isConstant (.binary op t l r) = true
    · exact quiet_compile_of_isConstant location (.binary hdiv hmod t hl hr) hc
    rw [compile, if_neg hc]
    exact ihl.bind fun left => ihr.bind fun right => .pure _
  | @byte f hf t hword e h ih =>
    by_cases hc : sc.isConstant (.call t [e]) = true
    · exact quiet_compile_of_isConstant location (.byte hf hword h) hc
    have hcallee : sc.callee t [e].length = .ok f :=
      callee_of_accepts hword (accepts_one (.inl hf))
    rw [compile, if_neg hc]
    simp only [hcallee]
    rcases hf with rfl | rfl <;> exact ih.bind fun program => .pure _
  | @query f hf t hword name h =>
    have hcallee : sc.callee t [Expr.identifier name].length = .ok f :=
      callee_of_accepts hword (accepts_one (.inr hf))
    have hl : f.isLinkTime = true := by rcases hf with rfl | rfl <;> rfl
    have hc : ¬ sc.isConstant (.call t [.identifier name]) = true := by
      rw [isConstant, hword]
      rcases hf with rfl | rfl <;> simp [Function.isAlwaysConstant, Function.isLinkTime]
    rw [compile_of_isLinkTime hc hcallee hl]
    exact quiet_compileQuery hf h

/-! ## Patches -/

theorem record_nil (st : State) : st.record [] = st := by simp [State.record]

/-- A program that leaves a value has bytes. -/
theorem bytes_ne_nil_of_pushesOne {p : Link.Program} (h : Link.PushesOne p) :
    Link.bytes p ≠ [] := by
  cases p with
  | nil => exact absurd (h 0) (by simp [Link.depthAfter?])
  | cons i p =>
    intro hbytes
    rw [Link.bytes, List.flatMap_cons, List.append_eq_nil_iff] at hbytes
    cases i <;> exact absurd hbytes.1 (by simp [Link.Instr.bytes])

/-- Wherever a section is open, an expression over numbers and names that are still to get their
meaning is left to the linker: the value is zero for now, one patch of the wanted kind and offset is
queued with a program that is not empty, new symbols come behind the old ones, and nothing else
changes. In particular there is no report. -/
theorem valueOrPatch_of_linkable (sc : Scope) (kind : PatchKind) (offset : Nat)
    (expected : Expected) (e : Expr) (hopen : sc.state.current.isSome = true)
    (h : sc.Linkable e) (hc : sc.isConstant e = false) (hexpected : expected ≠ .text) :
    ∃ symbols patch, sc.state.emitting (sc.valueOrPatch [] kind offset expected e) =
        (.number 0, { sc.state with symbols, patches := sc.state.patches.push patch }) ∧
      sc.state.symbols.entries <+: symbols.entries ∧
      patch.kind = kind ∧ patch.offset = offset ∧ some patch.place = sc.state.current ∧
      Link.bytes patch.program ≠ [] := by
  obtain ⟨place, hplace⟩ := Option.isSome_iff_exists.1 hopen
  let s : Linkage := ⟨sc.state.random, sc.state.symbols⟩
  let o := sc.compile (sc.here?.getD 0) e s
  obtain ⟨hreports, hrandom⟩ : o.reports = [] ∧ o.state.random = sc.state.random :=
    quiet_compile hopen (sc.here?.getD 0) h s
  have hcompiled : sc.Compiled s o := compiles_compile sc (sc.here?.getD 0) e s
  let patch : Patch :=
    { expr := e, file := sc.state.file, line := sc.state.line, place, kind, offset,
      program := o.value ++ [] }
  refine ⟨o.state.symbols, patch, ?_, hcompiled.grows.entries_prefix, rfl, rfl, hplace.symm, ?_⟩
  · have houtcome : sc.valueOrPatch [] kind offset expected e sc.state.emission =
        ⟨.number 0, ⟨o.state, sc.state.patches.push patch, sc.state.overflowed⟩, o.reports⟩ := by
      simp [valueOrPatch, hc, beq_eq_false_iff_ne.2 hexpected, deferWith, hplace, Act.linking,
        Act.modify, State.emission, s, o, patch]
    rw [State.emitting, houtcome]
    simp only [hreports, hrandom, record_nil]
  · show Link.bytes (o.value ++ []) ≠ []
    rw [List.append_nil]
    exact bytes_ne_nil_of_pushesOne hcompiled.pushesOne

/-- The expression `HIGH(far + 1) - BANK(lab)`, with a name that nothing defines. -/
def sampleForward : Expr :=
  .binary .sub (sampleToken "-")
    (.call (sampleToken "HIGH") [.binary .add (sampleToken "+") (.identifier (sampleToken "far"))
      (.number (sampleToken "1"))])
    (.call (sampleToken "BANK") [.identifier (sampleToken "lab")])

theorem linkable_sampleForward : sampleScope.Linkable sampleForward := by
  have hfar : sampleScope.Linkable (.identifier (sampleToken "far")) :=
    .name (.inr ⟨by decide, fun s h => by cases h⟩)
  have hone : sampleScope.Linkable (.number (sampleToken "1")) := .number (by decide)
  have hlab : sampleScope.IsFree "lab" := .inr ⟨by decide, fun s h => by cases h⟩
  exact .binary (by decide) (by decide) _
    (.byte (.inl rfl) (by decide) (.binary (by decide) (by decide) _ hfar hone))
    (.query (.inl rfl) (by decide) hlab)

theorem valueOrPatch_of_linkable_sampleForward :
    sampleScope.state.current.isSome = true ∧ sampleScope.Linkable sampleForward ∧
      sampleScope.isConstant sampleForward = false ∧ Expected.number ≠ .text ∧
      ∃ symbols patch,
        sampleScope.state.emitting (sampleScope.valueOrPatch [] .word 1 .number sampleForward) =
          (.number 0, { sampleScope.state with
            symbols, patches := sampleScope.state.patches.push patch }) ∧
        sampleScope.state.symbols.entries <+: symbols.entries ∧
        patch.kind = .word ∧ patch.offset = 1 ∧
        some patch.place = sampleScope.state.current ∧ Link.bytes patch.program ≠ [] :=
  have hconstant : sampleScope.isConstant sampleForward = false := rfl
  ⟨rfl, linkable_sampleForward, hconstant, by decide,
    valueOrPatch_of_linkable sampleScope .word 1 .number sampleForward rfl linkable_sampleForward
      hconstant (by decide)⟩

end Scope

end Sm83Asm
