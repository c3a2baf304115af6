import Sm83Asm.Link.Compile
import Sm83Asm.Proofs.Act
import Sm83Asm.Proofs.Link.Machine
import Sm83Asm.Proofs.Table

set_option autoImplicit false

/-!
# What compiling leaves behind

Compiling an expression may add symbols to the table, and gives a program. Looking a symbol up
either finds its position or adds an entry at the end (`symbolIn_cases`), so the old entries keep
their positions. The table grows only by looking symbols up (`Grows`), and whatever the expression
is and whatever was reported on the way, the program takes no value that is not there, leaves one
value more, and refers only to symbols of the table it leaves (`compiles_compile`).
-/

namespace Sm83Asm

namespace State

/-! ## Positions of symbols -/

/-- The name of the symbol for a place in a section. -/
def locationName (place : String) (offset : Nat) : String := s!"@{place}:{offset}"

/-- What looking a symbol up can do: find the name, or add it at the end. -/
theorem symbolIn_cases (symbols : Table Symbol) (name : String) (entry : Nat → Symbol) :
    (name ∈ symbols.keys ∧ ∃ id, symbols.keys[id]? = some name ∧
        symbolIn symbols name entry = (id, symbols)) ∨
      (name ∉ symbols.keys ∧
        symbolIn symbols name entry =
          (symbols.size, symbols.insert name (entry symbols.size))) := by
  unfold symbolIn
  cases h : symbols.indexOf? name with
  | some id =>
    have hid := Table.getElem?_keys_of_indexOf? h
    exact Or.inl ⟨List.mem_of_getElem? hid, id, hid, rfl⟩
  | none => exact Or.inr ⟨(Table.indexOf?_eq_none_iff symbols name).1 h, rfl⟩

theorem entries_prefix_symbolIn (symbols : Table Symbol) (name : String) (entry : Nat → Symbol) :
    symbols.entries <+: (symbolIn symbols name entry).2.entries := by
  rcases symbolIn_cases symbols name entry with ⟨-, id, -, h⟩ | ⟨hn, h⟩
  · simp [h]
  · rw [h, Table.entries_insert_of_not_mem _ hn]
    exact List.prefix_append _ _

/-- The position that is given out belongs to the name that was asked for. -/
theorem getElem?_keys_symbolIn (symbols : Table Symbol) (name : String) (entry : Nat → Symbol) :
    (symbolIn symbols name entry).2.keys[(symbolIn symbols name entry).1]? = some name := by
  rcases symbolIn_cases symbols name entry with ⟨-, id, hid, h⟩ | ⟨hn, h⟩
  · rw [h]
    exact hid
  · rw [h, Table.keys_insert_of_not_mem _ hn, ← Table.length_keys]
    exact List.getElem?_concat_length

theorem getElem?_keys_symbolId (st : State) (symbols : Table Symbol) (name : String) :
    (st.symbolId symbols name).2.keys[(st.symbolId symbols name).1]? = some name :=
  getElem?_keys_symbolIn _ _ _

theorem getElem?_keys_locationId (st : State) (symbols : Table Symbol) (place : String)
    (offset : Nat) :
    (st.locationId symbols place offset).2.keys[(st.locationId symbols place offset).1]? =
      some (locationName place offset) :=
  getElem?_keys_symbolIn _ _ _

theorem keys_prefix_of_entries_prefix {α : Type} {s t : Table α} (h : s.entries <+: t.entries) :
    s.keys <+: t.keys :=
  h.map Prod.fst

/-! ## Growing tables -/

/-- A table of symbols becomes another one by looking up names and places of the open section. -/
inductive Grows (st : State) : Table Symbol → Table Symbol → Prop
  | refl (symbols : Table Symbol) : Grows st symbols symbols
  | name {a b : Table Symbol} (name : String) (h : Grows st a b) :
      Grows st a (st.symbolId b name).2
  | location {a b : Table Symbol} {place : String} (hc : st.current = some place) (offset : Nat)
      (h : Grows st a b) : Grows st a (st.locationId b place offset).2

namespace Grows

variable {st : State}

theorem trans {a b c : Table Symbol} (hab : Grows st a b) (hbc : Grows st b c) : Grows st a c := by
  induction hbc with
  | refl => exact hab
  | name n _ ih => exact ih.name n
  | location hc offset _ ih => exact ih.location hc offset

/-- Entries that are present keep their places. -/
theorem entries_prefix {a b : Table Symbol} (h : Grows st a b) : a.entries <+: b.entries := by
  induction h with
  | refl => exact List.prefix_refl _
  | name n _ ih => exact ih.trans (entries_prefix_symbolIn _ _ _)
  | location _ offset _ ih => exact ih.trans (entries_prefix_symbolIn _ _ _)

theorem keys_prefix {a b : Table Symbol} (h : Grows st a b) : a.keys <+: b.keys :=
  keys_prefix_of_entries_prefix h.entries_prefix

theorem size_le {a b : Table Symbol} (h : Grows st a b) : a.size ≤ b.size :=
  h.entries_prefix.length_le

end Grows

end State

namespace Link

theorem PushesOne.append {p q : Program} (hp : PushesOne p)
    (hq : ∀ n, depthAfter? (n + 1) q = some (n + 1)) : PushesOne (p ++ q) := by
  intro n
  rw [depthAfter?_append, hp n]
  exact hq n

theorem SymbolsBelow.mono {m n : Nat} {p : Program} (h : SymbolsBelow m p) (hmn : m ≤ n) :
    SymbolsBelow n p :=
  fun i hi id hid => Nat.lt_of_lt_of_le (h i hi id hid) hmn

theorem SymbolsBelow.append {n : Nat} {p q : Program} (hp : SymbolsBelow n p)
    (hq : SymbolsBelow n q) : SymbolsBelow n (p ++ q) := by
  intro i hi
  rcases List.mem_append.1 hi with h | h
  · exact hp i h
  · exact hq i h

theorem symbolsBelow_of_symbol?_eq_none {p : Program} (n : Nat)
    (h : ∀ i ∈ p, i.symbol? = none) : SymbolsBelow n p := by
  intro i hi id hid
  rw [h i hi] at hid
  exact absurd hid (by simp)

end Link

namespace Scope

/-- What an action leaves behind on a linkage: a table that has grown, and a program for it that
leaves one value. -/
structure Compiled (sc : Scope) (before : Linkage) (o : Outcome Linkage Link.Program) : Prop where
  grows : sc.state.Grows before.symbols o.state.symbols
  pushesOne : Link.PushesOne o.value
  below : Link.SymbolsBelow o.state.symbols.size o.value

/-- An action that compiles something, on every linkage. -/
def Compiles (sc : Scope) (x : Act Linkage Link.Program) : Prop := ∀ s, sc.Compiled s (x s)

variable {sc : Scope}

/-- A program of one instruction that takes nothing and names no symbol. -/
theorem compiled_of_plain {before : Linkage} {o : Outcome Linkage Link.Program} {i : Link.Instr}
    (hs : o.state.symbols = before.symbols) (hv : o.value = [i]) (ht : i.takes = 0)
    (hi : i.symbol? = none) : sc.Compiled before o where
  grows := by
    rw [hs]
    exact .refl _
  pushesOne := by
    intro n
    rw [hv]
    simp [Link.depthAfter?, ht]
  below := by
    rw [hv]
    exact Link.symbolsBelow_of_symbol?_eq_none _ (by simpa using hi)

/-- A program of one instruction about a symbol that the table holds afterwards. -/
theorem compiled_of_symbol {before : Linkage} {o : Outcome Linkage Link.Program} {i : Link.Instr}
    {id : Nat} {name : String} (hg : sc.state.Grows before.symbols o.state.symbols)
    (hk : o.state.symbols.keys[id]? = some name) (hv : o.value = [i]) (ht : i.takes = 0)
    (hi : i.symbol? = some id) : sc.Compiled before o where
  grows := hg
  pushesOne := by
    intro n
    rw [hv]
    simp [Link.depthAfter?, ht]
  below := by
    rw [hv]
    intro j hj id' hid
    obtain rfl := List.mem_singleton.1 hj
    rw [hi, Option.some.injEq] at hid
    subst hid
    rw [← Table.length_keys]
    exact (List.getElem?_eq_some_iff.1 hk).1

theorem compiles_compileZero (cause : EvaluationCause) (t : Token) :
    sc.Compiles (compileZero cause t) :=
  fun _ => compiled_of_plain rfl rfl rfl rfl

theorem compiles_compileName (location : Nat) (t : Token) :
    sc.Compiles (sc.compileName location t) := by
  unfold compileName
  split
  · split
    · exact compiles_compileZero _ _
    · rename_i place hc
      exact fun s => compiled_of_symbol (.location hc _ (.refl _))
        (State.getElem?_keys_locationId sc.state s.symbols _ _) rfl rfl rfl
  · split
    · exact compiles_compileZero _ _
    · exact fun s => compiled_of_symbol (.name _ (.refl _))
        (State.getElem?_keys_symbolId sc.state s.symbols _) rfl rfl rfl

theorem compiles_bySection (f : Function) (e : Expr) : sc.Compiles (do
    let name ← Act.evaluating (sc.text e)
    return [ofSection f name]) := by
  intro s
  refine compiled_of_plain rfl rfl ?_ ?_ <;> unfold ofSection <;> split <;> rfl

theorem compiles_compileQuery {f : Function} {args : List Expr} (hf : f.isLinkTime = true)
    (ha : f.arity.accepts args.length = true) : sc.Compiles (sc.compileQuery f args) := by
  unfold compileQuery
  split
  · cases f <;> first | exact absurd hf (by decide) | exact absurd ha (by decide) | skip
    · exact fun s => compiled_of_plain rfl rfl rfl rfl
    · exact fun s => compiled_of_plain rfl rfl rfl rfl
  · split
    · exact compiles_bySection _ _
    · rename_i here hhere
      split
      · cases f <;> simp only [ofHere?, Option.some.injEq, reduceCtorEq] at hhere
        all_goals
          subst hhere
          exact fun s => compiled_of_plain rfl rfl rfl rfl
      · split
        · exact compiles_compileZero _ _
        · cases f <;> simp only [ofHere?, reduceCtorEq] at hhere
          all_goals
            intro s
            exact compiled_of_symbol (.name _ (.refl _))
              (State.getElem?_keys_symbolId sc.state s.symbols _) rfl rfl rfl
  · exact compiles_bySection _ _

/-- A program followed by instructions that replace its value by one other and name no symbol. -/
theorem Compiles.append {x : Act Linkage Link.Program} (hx : sc.Compiles x) {q : Link.Program}
    (hq : ∀ n, Link.depthAfter? (n + 1) q = some (n + 1)) (hs : ∀ i ∈ q, i.symbol? = none) :
    sc.Compiles (do
      let program ← x
      return program ++ q) := fun s =>
  { grows := (hx s).grows
    pushesOne := (hx s).pushesOne.append hq
    below := (hx s).below.append (Link.symbolsBelow_of_symbol?_eq_none _ hs) }

theorem Compiles.binary {x y : Act Linkage Link.Program} (hx : sc.Compiles x)
    (hy : sc.Compiles y) (op : BinaryOp) : sc.Compiles (do
      let left ← x
      let right ← y
      return left ++ right ++ [.binary op]) := fun s =>
  { grows := (hx s).grows.trans (hy _).grows
    pushesOne := by
      intro n
      show Link.depthAfter? n ((x s).value ++ (y (x s).state).value ++ [.binary op]) = some (n + 1)
      rw [Link.depthAfter?_append, Link.depthAfter?_append, (hx s).pushesOne n]
      simp only [Option.bind_some, (hy _).pushesOne (n + 1)]
      simp [Link.depthAfter?, Link.Instr.takes]
    below := by
      -- The left program was compiled for a smaller table.
      have hl := (hx s).below.mono (hy (x s).state).grows.size_le
      have hop : Link.SymbolsBelow (y (x s).state).state.symbols.size [.binary op] :=
        Link.symbolsBelow_of_symbol?_eq_none _ (by simp [Link.Instr.symbol?])
      exact (hl.append (hy _).below).append hop }

theorem ofWord?_of_callee {t : Token} {count : Nat} {f : Function}
    (h : sc.callee t count = .ok f) :
    Function.ofWord? t.text sc.state.extensions = some f ∧ f.arity.accepts count = true := by
  unfold callee at h
  cases hw : Function.ofWord? t.text sc.state.extensions with
  | none => simp [hw] at h
  | some g =>
    by_cases ha : g.arity.accepts count = true
    · simp [hw, ha] at h
      subst h
      exact ⟨rfl, ha⟩
    · simp [hw, ha] at h

/-- A constant is computed at once. -/
theorem compile_of_isConstant {location : Nat} {e : Expr} (hc : sc.isConstant e = true) :
    sc.compile location e = (do
      let n ← Act.evaluating (sc.number e)
      return [.int n]) := by
  rw [compile.eq_def, if_pos hc]

/-- A question that only the linker can answer is compiled as such. -/
theorem compile_of_isLinkTime {location : Nat} {t : Token} {args : List Expr} {f : Function}
    (hc : ¬ sc.isConstant (.call t args) = true) (hf : sc.callee t args.length = .ok f)
    (hl : f.isLinkTime = true) : sc.compile location (.call t args) = sc.compileQuery f args := by
  rw [compile.eq_def, if_neg hc]
  simp only [hf]
  cases f <;> first | exact absurd hl (by decide) | rfl

/-- Other functions than `HIGH` and `LOW` cannot be left to the linker. -/
theorem compile_of_ordinary {location : Nat} {t : Token} {args : List Expr} {f : Function}
    (hc : ¬ sc.isConstant (.call t args) = true) (hf : sc.callee t args.length = .ok f)
    (hl : ¬ f.isLinkTime = true) (hhigh : ∀ e, f = .high → args = [e] → False)
    (hlow : ∀ e, f = .low → args = [e] → False) :
    sc.compile location (.call t args) = compileZero (.notAtLinkTime f) t := by
  rw [compile.eq_def, if_neg hc]
  simp only [hf]
  rw [if_neg hl]

/-- Induction over an expression along the way that it is compiled. -/
theorem compile_induction (sc : Scope) {motive : Expr → Prop}
    (constant : ∀ e, sc.isConstant e = true → motive e)
    (name : ∀ t, ¬ sc.isConstant (.identifier t) = true → motive (.identifier t))
    (unary : ∀ op t e, ¬ sc.isConstant (.unary op t e) = true → motive e → motive (.unary op t e))
    (binary : ∀ op t l r, ¬ sc.isConstant (.binary op t l r) = true → motive l → motive r →
      motive (.binary op t l r))
    (unknown : ∀ t args cause, ¬ sc.isConstant (.call t args) = true →
      sc.callee t args.length = .error cause → motive (.call t args))
    (high : ∀ t e, ¬ sc.isConstant (.call t [e]) = true →
      sc.callee t [e].length = .ok .high → motive e → motive (.call t [e]))
    (low : ∀ t e, ¬ sc.isConstant (.call t [e]) = true →
      sc.callee t [e].length = .ok .low → motive e → motive (.call t [e]))
    (query : ∀ t args f, ¬ sc.isConstant (.call t args) = true →
      sc.callee t args.length = .ok f → f.isLinkTime = true → motive (.call t args))
    (ordinary : ∀ t args f, ¬ sc.isConstant (.call t args) = true →
      sc.callee t args.length = .ok f → ¬ f.isLinkTime = true →
      (∀ e, f = .high → args = [e] → False) → (∀ e, f = .low → args = [e] → False) →
      motive (.call t args))
    (bracket : ∀ t e, ¬ sc.isConstant (.bracket t e) = true → motive e → motive (.bracket t e))
    (index : ∀ t b e, ¬ sc.isConstant (.index t b e) = true → motive e → motive (.index t b e))
    (e : Expr) : motive e := by
  induction hsize : sizeOf e using Nat.strongRecOn generalizing e with
  | ind n ih =>
    replace ih : ∀ inner, sizeOf inner < sizeOf e → motive inner := fun inner h =>
      ih _ (hsize ▸ h) inner rfl
    by_cases hc : sc.isConstant e = true
    · exact constant e hc
    cases e with
    | number t => exact constant _ rfl
    | string t => exact constant _ rfl
    | identifier t => exact name t hc
    | unary op t e =>
      rw [Expr.unary.sizeOf_spec] at ih
      exact unary op t e hc (ih e (by omega))
    | binary op t l r =>
      rw [Expr.binary.sizeOf_spec] at ih
      exact binary op t l r hc (ih l (by omega)) (ih r (by omega))
    | call t args =>
      have harg : ∀ e, args = [e] → motive e := by
        rintro e rfl
        rw [Expr.call.sizeOf_spec, List.cons.sizeOf_spec] at ih
        exact ih e (by omega)
      cases hf : sc.callee t args.length with
      | error cause => exact unknown t args cause hc hf
      | ok f =>
        by_cases hl : f.isLinkTime = true
        · exact query t args f hc hf hl
        by_cases hhigh : ∃ e, f = .high ∧ args = [e]
        · obtain ⟨e, rfl, rfl⟩ := hhigh
          exact high t e hc hf (harg e rfl)
        by_cases hlow : ∃ e, f = .low ∧ args = [e]
        · obtain ⟨e, rfl, rfl⟩ := hlow
          exact low t e hc hf (harg e rfl)
        exact ordinary t args f hc hf hl (fun e h h' => hhigh ⟨e, h, h'⟩)
          (fun e h h' => hlow ⟨e, h, h'⟩)
    | bracket t e =>
      rw [Expr.bracket.sizeOf_spec] at ih
      exact bracket t e hc (ih e (by omega))
    | index t b e =>
      rw [Expr.index.sizeOf_spec] at ih
      exact index t b e hc (ih e (by omega))

/-- Compiling always gives a program that leaves one value and refers to symbols of the table. -/
theorem compiles_compile (sc : Scope) (location : Nat) (e : Expr) :
    sc.Compiles (sc.compile location e) := by
  induction e using compile_induction sc with
  | constant e hc =>
    rw [compile_of_isConstant hc]
    exact fun s => compiled_of_plain rfl rfl rfl rfl
  | name t hc =>
    rw [compile, if_neg hc]
    exact compiles_compileName location t
  | unary op t e hc ih =>
    rw [compile, if_neg hc]
    cases op <;>
      exact ih.append (fun _ => by simp [unaryProgram, Link.depthAfter?, Link.Instr.takes])
        (by simp [unaryProgram, Link.Instr.symbol?])
  | binary op t l r hc ihl ihr =>
    rw [compile, if_neg hc]
    exact ihl.binary ihr op
  | unknown t args cause hc hf =>
    rw [compile, if_neg hc, hf]
    exact compiles_compileZero _ _
  | high t e hc hf ih =>
    rw [compile, if_neg hc]
    simp only [hf]
    exact ih.append (fun _ => by simp [Link.depthAfter?, Link.Instr.takes])
      (by simp [Link.Instr.symbol?])
  | low t e hc hf ih =>
    rw [compile, if_neg hc]
    simp only [hf]
    exact ih.append (fun _ => by simp [Link.depthAfter?, Link.Instr.takes])
      (by simp [Link.Instr.symbol?])
  | query t args f hc hf hl =>
    rw [compile_of_isLinkTime hc hf hl]
    exact compiles_compileQuery hl (ofWord?_of_callee hf).2
  | ordinary t args f hc hf hl hhigh hlow =>
    rw [compile_of_ordinary hc hf hl hhigh hlow]
    exact compiles_compileZero _ _
  | bracket t e hc ih =>
    rw [compile, if_neg hc]
    exact ih
  | index t b e hc ih =>
    rw [compile, if_neg hc]
    exact ih

end Scope

end Sm83Asm
