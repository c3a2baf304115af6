import Sm83Asm.Proofs.Instruction.Overflow
import Sm83Asm.Proofs.Link.Compile

set_option autoImplicit false

/-!
# What placing bytes leaves behind

Data and instructions queue their patches before their bytes are known, each at an offset of its
own reckoning. This module says what all of them do: the patches that are new lie inside the bytes
that are given, cover zeros there and do not overlap, and their programs are complete
(`State.Emitted`). It is proved for one item of data or one operand, and goes over to sequences
because the bytes of a sequence are those of its parts, one behind the other
(`State.Emitted.append`).
-/

namespace Sm83Asm

/-! ## Patches in a run of bytes -/

namespace Patch

/-- The offset behind the bytes of a patch. -/
def stop (p : Patch) : Nat := p.offset + p.kind.width

/-- Two patches of one section do not overlap. -/
def Apart (p q : Patch) : Prop := p.place = q.place → p.stop ≤ q.offset ∨ q.stop ≤ p.offset

/-- A patch of a section covers zeros of a run of bytes that begins at `start`. -/
structure Covers (p : Patch) (place : String) (start : Nat) (bytes : List UInt8) : Prop where
  place_eq : p.place = place
  start_le : start ≤ p.offset
  zero : ∀ i < p.kind.width, bytes[p.offset - start + i]? = some 0

theorem width_pos (kind : PatchKind) : 0 < kind.width := by
  cases kind <;> decide

/-- A patch ends where the bytes that it covers end, or before. -/
theorem Covers.stop_le {p : Patch} {place : String} {start : Nat} {bytes : List UInt8}
    (h : p.Covers place start bytes) : p.stop ≤ start + bytes.length := by
  have hpos := width_pos p.kind
  have hlast := (List.getElem?_eq_some_iff.1 (h.zero (p.kind.width - 1) (by omega))).1
  have hstart := h.start_le
  unfold stop
  omega

/-- A patch still covers its bytes when more follow. -/
theorem Covers.append_right {p : Patch} {place : String} {start : Nat} {bytes : List UInt8}
    (h : p.Covers place start bytes) (more : List UInt8) :
    p.Covers place start (bytes ++ more) where
  place_eq := h.place_eq
  start_le := h.start_le
  zero i hi := by
    have hz := h.zero i hi
    rw [List.getElem?_append_left (List.getElem?_eq_some_iff.1 hz).1, hz]

/-- A patch still covers its bytes when others stand in front of them. -/
theorem Covers.append_left {p : Patch} {place : String} {start : Nat} {front bytes : List UInt8}
    (h : p.Covers place (start + front.length) bytes) : p.Covers place start (front ++ bytes) where
  place_eq := h.place_eq
  start_le := by
    have := h.start_le
    omega
  zero i hi := by
    have hstart := h.start_le
    rw [List.getElem?_append_right (by omega), ← h.zero i hi]
    congr 1
    omega

end Patch

/-- New patches of a section: they cover zeros of a run of bytes and do not overlap. -/
structure Placed (place : String) (start : Nat) (bytes : List UInt8) (new : List Patch) : Prop where
  covers : ∀ p ∈ new, p.Covers place start bytes
  apart : new.Pairwise Patch.Apart

namespace Placed

variable {place : String} {start : Nat} {bytes more : List UInt8} {new later : List Patch}

theorem nil (place : String) (start : Nat) (bytes : List UInt8) : Placed place start bytes [] where
  covers := by simp
  apart := List.Pairwise.nil

/-- A patch that covers all of some zeros. -/
theorem singleton {p : Patch} (hp : p.place = place) :
    Placed place p.offset (List.replicate p.kind.width 0) [p] where
  covers q hq := by
    obtain rfl := List.mem_singleton.1 hq
    refine ⟨hp, Nat.le_refl _, fun i hi => ?_⟩
    rw [Nat.sub_self, Nat.zero_add, List.getElem?_replicate, if_pos hi]
  apart := List.pairwise_singleton _ _

/-- Patches of one stretch and of the next do not overlap. -/
theorem append (h : Placed place start bytes new)
    (h' : Placed place (start + bytes.length) more later) :
    Placed place start (bytes ++ more) (new ++ later) where
  covers p hp := by
    rcases List.mem_append.1 hp with hp | hp
    · exact (h.covers p hp).append_right more
    · exact (h'.covers p hp).append_left
  apart := by
    -- Patches of the first run end where those of the second begin at the earliest.
    refine List.pairwise_append.2 ⟨h.apart, h'.apart, fun p hp q hq _ => Or.inl ?_⟩
    exact Nat.le_trans (h.covers p hp).stop_le (h'.covers q hq).start_le

end Placed

/-- A program that a patch may hold: it leaves one value and refers to symbols of the table. -/
def Complete (symbols : Table Symbol) (program : Link.Program) : Prop :=
  Link.PushesOne program ∧ Link.SymbolsBelow symbols.size program

/-- A program that names known symbols does so when more become known. -/
theorem Complete.mono {a b : Table Symbol} {program : Link.Program} (h : Complete a program)
    (hab : a.size ≤ b.size) : Complete b program :=
  ⟨h.1, h.2.mono hab⟩

namespace State

/-! ## Emissions -/

/-- What an emission has become once some bytes for an offset of a section are known. -/
structure Emitted (st : State) (place : String) (start : Nat) (bytes : List UInt8)
    (before after : Emission) : Prop where
  grows : st.Grows before.linkage.symbols after.linkage.symbols
  patches : ∃ new, after.patches.toList = before.patches.toList ++ new ∧
    Placed place start bytes new ∧ ∀ p ∈ new, Complete after.linkage.symbols p.program

/-- Symbols and patches are as they were. -/
def Untouched (before after : Emission) : Prop :=
  after.linkage.symbols = before.linkage.symbols ∧ after.patches = before.patches

variable {st : State} {place : String} {start : Nat} {bytes more : List UInt8}
  {before between after : Emission}

/-- What leaves patches and symbols as they are, twice. -/
theorem Untouched.trans (h : Untouched before between) (h' : Untouched between after) :
    Untouched before after :=
  ⟨h'.1.trans h.1, h'.2.trans h.2⟩

/-- Bytes that go without a patch. -/
theorem Emitted.of_untouched (h : Untouched before after) (bytes : List UInt8) :
    st.Emitted place start bytes before after where
  grows := by
    rw [h.1]
    exact .refl _
  patches := ⟨[], by rw [h.2, List.append_nil], Placed.nil _ _ _, by simp⟩

/-- What is computed before the bytes leaves patches and symbols as they are. -/
theorem Emitted.of_before (h : st.Emitted place start bytes between after)
    (h' : Untouched before between) : st.Emitted place start bytes before after where
  grows := h'.1 ▸ h.grows
  patches := h'.2 ▸ h.patches

/-- What is computed after the bytes leaves patches and symbols as they are. -/
theorem Emitted.of_after (h : st.Emitted place start bytes before between)
    (h' : Untouched between after) : st.Emitted place start bytes before after where
  grows := by
    rw [h'.1]
    exact h.grows
  patches := by
    rw [h'.1, h'.2]
    exact h.patches

/-- One stretch of bytes behind another, with the patches of both. -/
theorem Emitted.append (h : st.Emitted place start bytes before between)
    (h' : st.Emitted place (start + bytes.length) more between after) :
    st.Emitted place start (bytes ++ more) before after := by
  obtain ⟨new, hnew, hplaced, hcomplete⟩ := h.patches
  obtain ⟨later, hlater, hplaced', hcomplete'⟩ := h'.patches
  refine ⟨h.grows.trans h'.grows, new ++ later, ?_, hplaced.append hplaced', fun p hp => ?_⟩
  · rw [hlater, hnew, List.append_assoc]
  · rcases List.mem_append.1 hp with hp | hp
    · exact (hcomplete p hp).mono h'.grows.size_le
    · exact hcomplete' p hp

/-- Bytes without patches in front. -/
theorem Emitted.preceded {front : List UInt8}
    (h : st.Emitted place (start + front.length) bytes before after) :
    st.Emitted place start (front ++ bytes) before after :=
  (Emitted.of_untouched ⟨rfl, rfl⟩ front).append h

/-- Bytes without patches at the end. -/
theorem Emitted.followed (h : st.Emitted place start bytes before after) (back : List UInt8) :
    st.Emitted place start (bytes ++ back) before after :=
  h.append (Emitted.of_untouched ⟨rfl, rfl⟩ back)

/-- One patch was queued. -/
structure Queued (st : State) (place : String) (kind : PatchKind) (offset : Nat)
    (before after : Emission) : Prop where
  grows : st.Grows before.linkage.symbols after.linkage.symbols
  patch : ∃ p : Patch, after.patches = before.patches.push p ∧ p.place = place ∧ p.kind = kind ∧
    p.offset = offset ∧ Complete after.linkage.symbols p.program

/-- The bytes of a patch are zeros until the linker fills them in. -/
theorem Queued.emitted {kind : PatchKind} {offset : Nat}
    (h : st.Queued place kind offset before after) :
    st.Emitted place offset (List.replicate kind.width 0) before after := by
  obtain ⟨p, hpatches, hplace, rfl, rfl, hcomplete⟩ := h.patch
  exact ⟨h.grows, [p], by simp [hpatches], Placed.singleton hplace, by simpa using hcomplete⟩

/-! ## Actions that place bytes -/

section Actions

variable {α β : Type} {render : α → List UInt8} {x : Act Emission α}

/-- An action that gives bytes for an offset of a section, on every emission. -/
def Emits (st : State) (place : String) (start : Nat) (render : α → List UInt8)
    (x : Act Emission α) : Prop :=
  ∀ s, st.Emitted place start (render (x s).value) s (x s).state

/-- An action that adds no symbol and no patch. -/
def Passive (x : Act Emission α) : Prop := ∀ s, Untouched s (x s).state

/-- A passive action whose value is known. -/
def Gives (a : α) (x : Act Emission α) : Prop := ∀ s, Untouched s (x s).state ∧ (x s).value = a

theorem gives_pure (a : α) : Gives a (pure a : Act Emission α) := fun _ => ⟨⟨rfl, rfl⟩, rfl⟩

/-- A check reports at most, and goes on with the value. -/
theorem gives_check (b : Bool) (cause : EvaluationCause) (token : Token) (a : α) :
    Gives a (do
      if b then
        Act.fault cause token
      return a) := by
  cases b with
  | true => exact fun _ => ⟨⟨rfl, rfl⟩, rfl⟩
  | false => exact gives_pure a

/-- Evaluating queues no patch. -/
theorem passive_drawing (x : Act Random α) : Passive (Act.drawing x) := fun _ => ⟨rfl, rfl⟩

/-- Arithmetic queues no patch, even if it overflows. -/
theorem passive_checked (result : Checked α) : Passive (Act.checked result) :=
  fun _ => ⟨rfl, rfl⟩

/-- A value that goes without a patch. -/
theorem Gives.emits {a : α} (hx : Gives a x) (render : α → List UInt8) :
    st.Emits place start render x :=
  fun s => .of_untouched (hx s).1 _

/-- What is computed first queues no patch, and the rest emits the bytes. -/
theorem Passive.bind (hx : Passive x) {k : α → Act Emission β} {render : β → List UInt8}
    (hk : ∀ a, st.Emits place start render (k a)) : st.Emits place start render (x >>= k) :=
  fun s => (hk _ _).of_before (hx s)

/-- What goes on passively may give the bytes in another form. -/
theorem Emits.bind (hx : st.Emits place start render x) {k : α → Act Emission β} {f : α → β}
    {render' : β → List UInt8} (hk : ∀ a, Gives (f a) (k a))
    (hr : ∀ a, render' (f a) = render a) : st.Emits place start render' (x >>= k) := by
  intro s
  obtain ⟨huntouched, hvalue⟩ := hk (x s).value (x s).state
  show st.Emitted place start (render' (k (x s).value (x s).state).value) s _
  rw [hvalue, hr]
  exact (hx s).of_after huntouched

end Actions

end State

namespace Scope

open State

variable {sc : Scope} {place : String}

/-! ## One patch -/

/-- Instructions that may follow a program: they replace its value and name no symbol. -/
def IsCheck (check : Link.Program) : Prop :=
  (∀ n, Link.depthAfter? (n + 1) check = some (n + 1)) ∧ ∀ i ∈ check, i.symbol? = none

/-- No check at all. -/
theorem isCheck_nil : IsCheck [] := ⟨fun _ => rfl, by simp⟩

theorem isCheck_hramCheck : IsCheck [.hramCheck] :=
  ⟨fun n => by simp [Link.depthAfter?, Link.Instr.takes], by simp [Link.Instr.symbol?]⟩

/-- What is left to the linker becomes one patch, with a check behind its program. -/
theorem queued_deferWith (hc : sc.state.current = some place) {check : Link.Program}
    (hcheck : IsCheck check) (kind : PatchKind) (offset : Nat) (e : Expr) (s : Emission) :
    sc.state.Queued place kind offset s (sc.deferWith check kind offset e s).state := by
  have hcompiled := compiles_compile sc (sc.here?.getD 0) e s.linkage
  have hcomplete : Complete (sc.compile (sc.here?.getD 0) e s.linkage).state.symbols
      ((sc.compile (sc.here?.getD 0) e s.linkage).value ++ check) :=
    ⟨hcompiled.pushesOne.append hcheck.1,
      hcompiled.below.append (Link.symbolsBelow_of_symbol?_eq_none _ hcheck.2)⟩
  rw [deferWith, hc]
  exact ⟨hcompiled.grows, _, rfl, rfl, rfl, rfl, hcomplete⟩

/-- Zeros stand for what is left to the linker. -/
theorem emits_defer (hc : sc.state.current = some place) (kind : PatchKind) (offset : Nat)
    (e : Expr) :
    sc.state.Emits place offset (fun _ => List.replicate kind.width 0) (sc.defer kind offset e) :=
  fun s => (queued_deferWith hc isCheck_nil kind offset e s).emitted

/-- An expression has a value now, or gets a patch and the zeros that the patch covers. -/
theorem emits_valueOrPatch (hc : sc.state.current = some place) {check : Link.Program}
    (hcheck : IsCheck check) (kind : PatchKind) (offset : Nat) (expected : Expected) (e : Expr)
    (render : Value → List UInt8) (hzero : render (.number 0) = List.replicate kind.width 0) :
    sc.state.Emits place offset render (sc.valueOrPatch check kind offset expected e) := by
  intro s
  by_cases hconst : sc.isConstant e = true
  · rw [valueOrPatch, if_pos hconst]
    exact .of_untouched (passive_drawing _ s) _
  · by_cases ht : (expected == .text) = true
    · -- A text cannot be left to the linker: a fault is reported and nothing is queued.
      rw [valueOrPatch, if_neg hconst, if_pos ht]
      exact .of_untouched ⟨rfl, rfl⟩ _
    · rw [valueOrPatch, if_neg hconst, if_neg ht]
      show sc.state.Emitted place offset (render (.number 0)) s _
      rw [hzero]
      exact (queued_deferWith hc hcheck kind offset e s).emitted

/-- A number is rendered, or zeros stand for it. -/
theorem emits_numberOrPatch (hc : sc.state.current = some place) (kind : PatchKind) (offset : Nat)
    (e : Expr) (render : Int32 → List UInt8) (hzero : render 0 = List.replicate kind.width 0) :
    sc.state.Emits place offset render (sc.numberOrPatch kind offset e) :=
  emits_valueOrPatch hc isCheck_nil kind offset .number e (render ∘ Value.toNumber) hzero

/-! ## Data -/

/-- How an item of `DB` is written. -/
def byteItem (sc : Scope) : Value → List UInt8
  | .text s => charmapBytes sc.state.charmap s.toList
  | .number n => [n.toUInt32.toUInt8]

/-- An item of data is its bytes, or as many zeros with a patch. -/
theorem emits_dataItem (hc : sc.state.current = some place) (keyword : Keyword) (offset : Nat)
    (e : Expr) : sc.state.Emits place offset id (sc.dataItem keyword offset e) := by
  -- In an item, `@` is the place of that item and not of the line.
  let pinned : Scope := { sc with pinned := some offset }
  have hc' : pinned.state.current = some place := hc
  unfold dataItem
  dsimp only
  split
  · have hx := emits_valueOrPatch hc' isCheck_nil .byte offset .either e sc.byteItem rfl
    refine hx.bind (f := sc.byteItem) (fun v => ?_) fun _ => rfl
    cases v with
    | text s => exact gives_pure _
    | number n => exact gives_check _ _ _ _
  · exact (emits_numberOrPatch hc' .word offset e (fun n => (Link.littleEndian n.toUInt32).take 2)
      rfl).bind (fun n => gives_check _ _ _ _) fun n => rfl
  · exact (emits_numberOrPatch hc' .long offset e (fun n => Link.littleEndian n.toUInt32) rfl).bind
      (fun n => gives_pure _) fun n => rfl

/-- Items of data stand one behind the other, and so do their patches. -/
theorem emits_dataItems (hc : sc.state.current = some place) (keyword : Keyword)
    (es : List Expr) (offset : Nat) :
    sc.state.Emits place offset id (sc.dataItems keyword offset es) := by
  induction es generalizing offset with
  | nil => exact (gives_pure _).emits _
  | cons e es ih =>
    intro s
    exact (emits_dataItem hc keyword offset e s).append (ih _ _)

/-! ## Instructions -/

/-- An operand of a byte is checked, or a zero stands for it. -/
theorem emits_byteOperand (hc : sc.state.current = some place) (lo hi : Int32) (offset : Nat)
    (e : Expr) : sc.state.Emits place offset (fun b => [b]) (sc.byteOperand lo hi offset e) :=
  (emits_numberOrPatch hc .byte offset e (fun n => [n.toUInt32.toUInt8]) rfl).bind
    (fun _ => gives_check _ _ _ _) fun _ => rfl

/-- An operand of two bytes is checked, or two zeros stand for it. -/
theorem emits_wordOperand (hc : sc.state.current = some place) (offset : Nat) (e : Expr) :
    sc.state.Emits place offset id (sc.wordOperand offset e) :=
  (emits_numberOrPatch hc .word offset e wordBytes rfl).bind
    (fun _ => gives_check _ _ _ _) fun _ => rfl

/-- A jump is resolved at once, or a zero stands for its distance. -/
theorem emits_jumpOperand (hc : sc.state.current = some place) (offset : Nat) (e : Expr) :
    sc.state.Emits place offset (fun b => [b]) (sc.jumpOperand offset e) := by
  refine (passive_checked _).bind fun next => (passive_drawing _).bind fun target => ?_
  cases target with
  | none =>
    exact (emits_defer hc .jump offset e).bind (f := fun _ => 0) (fun _ => gives_pure 0)
      fun _ => rfl
  | some target =>
    refine (passive_checked _).bind fun _ => (passive_checked _).bind fun _ => ?_
    exact (gives_check _ _ _ _).emits _

/-- An operand of the top page is its low byte, or a zero stands for it. -/
theorem emits_topPageOperand (hc : sc.state.current = some place) (offset : Nat) (e : Expr) :
    sc.state.Emits place offset (fun b => [b]) (sc.topPageOperand offset e) := by
  refine (passive_drawing _).bind fun known => ?_
  cases known with
  | none =>
    have hx : sc.state.Emits place offset (fun _ => [0]) (sc.topPageOrPatch offset e) :=
      emits_valueOrPatch hc isCheck_hramCheck .byte offset .number e (fun _ => [0]) rfl
    exact hx.bind (f := fun _ => 0) (fun _ => gives_pure 0) fun _ => rfl
  | some n => exact (gives_pure _).emits _

/-- Every operand queues a patch for its own bytes only. -/
theorem emits_operandCode (hc : sc.state.current = some place) (offset : Nat) (pattern : Pattern)
    (e : Expr) :
    sc.state.Emits place offset OperandCode.bytes (sc.operandCode offset pattern e) := by
  unfold operandCode
  split
  · exact (gives_pure _).emits _
  · exact (gives_pure _).emits _
  · exact (gives_pure _).emits _
  · exact (passive_drawing _).bind fun n => (passive_checked _).bind fun _ => (gives_pure _).emits _
  · exact (passive_drawing _).bind fun n => (gives_pure _).emits _
  · exact (emits_byteOperand hc _ _ offset e).bind (fun _ => gives_pure _) fun _ => rfl
  · exact (emits_byteOperand hc _ _ offset e).bind (fun _ => gives_pure _) fun _ => rfl
  · split
    · exact (emits_byteOperand hc _ _ offset _).bind (fun _ => gives_pure _) fun _ => rfl
    · exact (gives_pure _).emits _
  · exact (emits_wordOperand hc offset e).bind (fun _ => gives_pure _) fun _ => rfl
  · split
    · exact (gives_pure _).emits _
    · exact (emits_wordOperand hc offset _).bind (fun _ => gives_pure _) fun _ => rfl
  · split
    · exact (gives_pure _).emits _
    · exact (emits_topPageOperand hc offset _).bind (fun _ => gives_pure _) fun _ => rfl
  · split
    · exact (gives_pure _).emits _
    · exact (emits_topPageOperand hc offset _).bind (fun _ => gives_pure _) fun _ => rfl
  · exact (emits_jumpOperand hc offset e).bind (fun _ => gives_pure _) fun _ => rfl

/-- The operands of an instruction stand one behind the other, and so do their patches. -/
theorem emits_operandCodes (hc : sc.state.current = some place) (patterns : List Pattern)
    (es : List Expr) (offset : Nat) :
    sc.state.Emits place offset OperandCode.bytes (sc.operandCodes offset patterns es) := by
  induction patterns generalizing es offset with
  | nil =>
    rw [operandCodes.eq_def]
    exact (gives_pure _).emits _
  | cons p ps ih =>
    cases es with
    | nil => exact (gives_pure _).emits _
    | cons e es =>
      intro s
      exact (emits_operandCode hc offset p e s).append (ih _ _ _)

/-- The bytes of an instruction come to lie at the end of the open section. -/
theorem emits_encode (hc : sc.state.current = some place) {start : Nat}
    (hs : sc.state.offset? = some start) (word : Token) (args : List Expr) :
    sc.state.Emits place start (fun bytes => bytes.getD []) (sc.encode word args) := by
  refine (passive_drawing _).bind fun variant => ?_
  cases variant with
  | none => exact Gives.emits (a := none) (fun _ => ⟨⟨rfl, rfl⟩, rfl⟩) _
  | some v =>
    dsimp only
    rw [hs]
    intro s
    have hcodes := emits_operandCodes hc v.operands args (start + v.lead.toList.length + 1) s
    have hopcode : ∀ opcode : UInt8, sc.state.Emitted place (start + v.lead.toList.length)
        ([opcode] ++ _) s _ := fun _ => hcodes.preceded
    exact (((hopcode _).preceded.followed _).followed _).of_after ⟨rfl, rfl⟩

end Scope

end Sm83Asm
