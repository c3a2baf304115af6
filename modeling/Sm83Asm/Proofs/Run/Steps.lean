import Mathlib.Data.List.Chain
import Sm83Asm.Proofs.Run.History

set_option autoImplicit false

/-!
# From one moment to the next

The moments of a run lie next to each other in two ways. Between the two moments of a line that
expands to nothing the line itself is carried out. Between all others nothing happens but the
beginning or the end of an expansion, or a move to another place. For a part of the assembler that
these leave alone, a run is a chain of steps of which every one keeps this part or is a line.

Main statement: `compositional_chainAlong`.
-/

namespace Sm83Asm

namespace Assembler

variable {β : Type} {S : Moment → Moment → Prop} {f : Assembler → β}

/-- The moments of a stretch follow each other by steps, and a part of the assembler is the same at
the first of them as at the start of the stretch, and at the last as at the end. -/
structure ChainAlong (S : Moment → Moment → Prop) (f : Assembler → β) (a : Assembler)
    (ms : List Moment) (b : Assembler) : Prop where
  steps : ms.IsChain S
  first : ∀ m ∈ ms.head?, f m.asm = f a
  last : ∀ m ∈ ms.getLast?, m.done = true ∧ f m.asm = f b
  empty : ms = [] → f b = f a

/-- Steps at which no line is carried out: behind the end of a line, or inside one that expands. -/
def AllowsQuiet (S : Moment → Moment → Prop) (f : Assembler → β) : Prop :=
  ∀ m n : Moment, f n.asm = f m.asm →
    m.done = true ∨ (expansionOf? m.visit.line m.visit.text m.visit.before).isSome = true → S m n

theorem chainAlong_nil {a b : Assembler} (h : f b = f a) : ChainAlong S f a [] b :=
  ⟨.nil, by simp, by simp, fun _ => h⟩

theorem chainAlong_append (hquiet : AllowsQuiet S f) {a b c : Assembler} {ms ns : List Moment}
    (hab : ChainAlong S f a ms b) (hbc : ChainAlong S f b ns c) :
    ChainAlong S f a (ms ++ ns) c where
  steps := by
    refine List.isChain_append.2 ⟨hab.steps, hbc.steps, fun m hm n hn => ?_⟩
    obtain ⟨hdone, hlast⟩ := hab.last m hm
    exact hquiet m n ((hbc.first n hn).trans hlast.symm) (Or.inl hdone)
  first m hm := by
    cases ms with
    | nil => exact (hbc.first m hm).trans (hab.empty rfl)
    | cons m' ms => exact hab.first m hm
  last m hm := by
    cases ns with
    | nil =>
      rw [List.append_nil] at hm
      obtain ⟨hdone, hlast⟩ := hab.last m hm
      exact ⟨hdone, hlast.trans (hbc.empty rfl).symm⟩
    | cons n ns =>
      rw [List.getLast?_append_of_ne_nil _ (List.cons_ne_nil n ns)] at hm
      exact hbc.last m hm
  empty h := by
    obtain ⟨rfl, rfl⟩ := List.append_eq_nil_iff.1 h
    exact (hbc.empty rfl).trans (hab.empty rfl)

/-- A stretch between two assemblers that do not differ in the part. -/
theorem ChainAlong.between {a b c d : Assembler} {ms : List Moment} (h : ChainAlong S f b ms c)
    (hab : f b = f a) (hcd : f d = f c) : ChainAlong S f a ms d where
  steps := h.steps
  first m hm := (h.first m hm).trans hab
  last m hm := ⟨(h.last m hm).1, (h.last m hm).2.trans hcd.symm⟩
  empty hnil := hcd.trans ((h.empty hnil).trans hab)

/-- The moments of a line that expands, around a stretch. -/
theorem chainAlong_around (hquiet : AllowsQuiet S f) {v : Visit} {ms : List Moment}
    (hx : (expansionOf? v.line v.text v.before).isSome = true)
    (h : ChainAlong S f v.before ms v.after) :
    ChainAlong S f v.before (v.around ms) v.after where
  steps := by
    have hbegin : ∀ m, f m.asm = f v.before → S ⟨v, false⟩ m := fun m hm =>
      hquiet ⟨v, false⟩ m hm (Or.inr hx)
    rw [Visit.around, List.cons_append]
    cases ms with
    | nil => exact List.isChain_pair.2 (hbegin ⟨v, true⟩ (h.empty rfl))
    | cons m ms =>
      refine List.IsChain.cons_cons (hbegin m (h.first m rfl)) ?_
      refine List.isChain_append.2 ⟨h.steps, .singleton _, fun last hlast n hn => ?_⟩
      obtain rfl := Option.some.inj hn
      obtain ⟨hdone, hend⟩ := h.last last hlast
      exact hquiet last ⟨v, true⟩ hend.symm (Or.inl hdone)
  first m hm := by
    obtain rfl := Option.some.inj hm
    rfl
  last m hm := by
    rw [Visit.around, List.getLast?_concat] at hm
    obtain rfl := Option.some.inj hm
    exact ⟨rfl, rfl⟩
  empty hnil := absurd hnil (by simp [Visit.around])

/-- Whole runs are chains of steps, for every part of the assembler that only lines change. -/
theorem compositional_chainAlong (hquiet : AllowsQuiet S f)
    (hplain : ∀ v : Visit, v.after = runLine none v.line v.text v.before →
      S ⟨v, false⟩ ⟨v, true⟩)
    (hexpanded : ∀ (v : Visit) (x : Expansion), expansionOf? v.line v.text v.before = some x →
      f x.opened = f v.before ∧ ∀ a, f (x.close a) = f a)
    (hfault : ∀ a cause token, f (a.fault cause token) = f a)
    (hmoved : ∀ a files sources file line extensions,
      f (a.moved files sources file line extensions) = f a) :
    Compositional fun _ a ms b => ChainAlong S f a ms b where
  nil _ a := chainAlong_nil rfl
  append hab hbc := chainAlong_append hquiet hab hbc
  plain v hv :=
    { steps := List.isChain_pair.2 (hplain v (Visit.after_eq_runLine hv))
      first := fun m hm => by
        obtain rfl := Option.some.inj hm
        rfl
      last := fun m hm => by
        obtain rfl := Option.some.inj hm
        exact ⟨rfl, rfl⟩
      empty := fun hnil => absurd hnil (by simp [Visit.around]) }
  expanded v x n ms b _ hx hafter hb := by
    obtain ⟨hopened, hclosed⟩ := hexpanded v x hx
    exact chainAlong_around hquiet (by rw [hx]; rfl) (hb.between hopened (hafter ▸ hclosed b))
  unread _ a file _ := chainAlong_nil (hfault a _ _)
  range hb := hb.between (hmoved _ _ _ _ _ _) (hmoved _ _ _ _ _ _)
  file hb := hb.between (hmoved _ _ _ _ _ _) (hmoved _ _ _ _ _ _)
  load _ a files name text := chainAlong_nil (hmoved a files _ _ _ _)

end Assembler

end Sm83Asm
