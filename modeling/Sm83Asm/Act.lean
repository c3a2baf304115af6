import Sm83Asm.Diagnostic

set_option autoImplicit false

/-!
# Actions that report

An action changes a state of type `σ`, gives a value and adds reports. The type of the state says
what an action can change at all: evaluating a constant changes only the random source, and
compiling for the linker also the symbols.
-/

namespace Sm83Asm

/-- What an action leaves behind. -/
structure Outcome (σ α : Type) where
  value : α
  state : σ
  /-- Reports in the order in which they were made. -/
  reports : List Report

/-- An action on a state of type `σ`. -/
def Act (σ α : Type) : Type := σ → Outcome σ α

namespace Act

variable {σ τ α β : Type}

/-- Gives a value and changes nothing. -/
protected def pure (a : α) : Act σ α := fun s => ⟨a, s, []⟩

/-- Does one action after the other. -/
protected def bind (x : Act σ α) (f : α → Act σ β) : Act σ β := fun s =>
  let first := x s
  let second := f first.value first.state
  ⟨second.value, second.state, first.reports ++ second.reports⟩

instance : Monad (Act σ) where
  pure := Act.pure
  bind := Act.bind

/-- Changes the state by a function that also gives a value. -/
def modifyGet (f : σ → α × σ) : Act σ α := fun s =>
  let (a, s) := f s
  ⟨a, s, []⟩

/-- Changes the state. -/
def modify (f : σ → σ) : Act σ Unit := fun s => ⟨(), f s, []⟩

/-- Adds reports. -/
def tell (reports : List Report) : Act σ Unit := fun s => ⟨(), s, reports⟩

/-- Adds a report of the evaluator. -/
def fault (cause : EvaluationCause) (token : Token) : Act σ Unit :=
  tell [.evaluation cause token]

/-- Does an action on a part of a larger state. -/
def within (part : σ → τ) (replace : σ → τ → σ) (x : Act τ α) : Act σ α := fun s =>
  let inner := x (part s)
  ⟨inner.value, replace s inner.state, inner.reports⟩

end Act

end Sm83Asm
