import Sm83Asm.Link.Compile

set_option autoImplicit false

/-!
# Laws of actions

What each building block of an action gives on a state, as equations for rewriting, and actions
that are settled: they leave the state as it is and give the same value and reports on every state.
-/

namespace Sm83Asm

namespace Act

variable {σ τ α β : Type}

@[simp] theorem pure_apply (a : α) (s : σ) : (pure a : Act σ α) s = ⟨a, s, []⟩ := rfl

/-- The second action goes on in the state of the first, and its reports come behind. -/
@[simp] theorem bind_apply (x : Act σ α) (f : α → Act σ β) (s : σ) :
    (x >>= f) s =
      ⟨(f (x s).value (x s).state).value, (f (x s).value (x s).state).state,
        (x s).reports ++ (f (x s).value (x s).state).reports⟩ := rfl

@[simp] theorem map_apply (f : α → β) (x : Act σ α) (s : σ) :
    (f <$> x) s = ⟨f (x s).value, (x s).state, (x s).reports⟩ := by
  show (⟨f (x s).value, (x s).state, (x s).reports ++ []⟩ : Outcome σ β) = _
  rw [List.append_nil]

@[simp] theorem tell_apply (reports : List Report) (s : σ) :
    tell reports s = ⟨(), s, reports⟩ := rfl

@[simp] theorem fault_apply (cause : EvaluationCause) (token : Token) (s : σ) :
    fault cause token s = ⟨(), s, [.evaluation cause token]⟩ := rfl

@[simp] theorem modify_apply (f : σ → σ) (s : σ) : modify f s = ⟨(), f s, []⟩ := rfl

@[simp] theorem modifyGet_apply (f : σ → α × σ) (s : σ) :
    modifyGet f s = ⟨(f s).1, (f s).2, []⟩ := rfl

@[simp] theorem within_apply (part : σ → τ) (replace : σ → τ → σ) (x : Act τ α) (s : σ) :
    within part replace x s =
      ⟨(x (part s)).value, replace s (x (part s)).state, (x (part s)).reports⟩ := rfl

/-- An evaluation changes the random source of the linkage. -/
@[simp] theorem evaluating_apply (x : Act Random α) (s : Linkage) :
    evaluating x s =
      ⟨(x s.random).value, { s with random := (x s.random).state }, (x s.random).reports⟩ := rfl

/-- Compiling changes the linkage of the emission. -/
@[simp] theorem linking_apply (x : Act Linkage α) (s : Emission) :
    linking x s =
      ⟨(x s.linkage).value, { s with linkage := (x s.linkage).state }, (x s.linkage).reports⟩ :=
  rfl

/-! ## Settled actions -/

/-- An action that leaves every state as it is and always gives the same value and reports. -/
def Settled (x : Act σ α) : Prop := ∃ a reports, ∀ s, x s = ⟨a, s, reports⟩

theorem Settled.pure (a : α) : Settled (pure a : Act σ α) := ⟨a, [], fun _ => rfl⟩

/-- Two actions that do not depend on the state, one after the other. -/
theorem Settled.bind {x : Act σ α} {f : α → Act σ β} (hx : Settled x) (hf : ∀ a, Settled (f a)) :
    Settled (x >>= f) := by
  obtain ⟨a, reports, ha⟩ := hx
  obtain ⟨b, more, hb⟩ := hf a
  exact ⟨b, reports ++ more, fun s => by simp [ha, hb]⟩

theorem Settled.map {x : Act σ α} (f : α → β) (hx : Settled x) : Settled (f <$> x) := by
  obtain ⟨a, reports, ha⟩ := hx
  exact ⟨f a, reports, fun s => by simp [ha]⟩

theorem Settled.tell (reports : List Report) : Settled (tell reports : Act σ Unit) :=
  ⟨(), reports, fun _ => rfl⟩

theorem Settled.fault (cause : EvaluationCause) (token : Token) :
    Settled (fault cause token : Act σ Unit) :=
  Settled.tell _

/-- A settled action says the same on any two states. -/
theorem Settled.apply_eq {x : Act σ α} (hx : Settled x) (s s' : σ) :
    (x s).value = (x s').value ∧ (x s).reports = (x s').reports := by
  obtain ⟨a, reports, ha⟩ := hx
  rw [ha, ha]
  exact ⟨rfl, rfl⟩

/-- The value of an action that makes no report. -/
def quiet? (x : Act σ α) (s : σ) : Option α :=
  if (x s).reports.isEmpty then some (x s).value else none

/-- An action without a report gives its value. -/
theorem quiet?_eq_some {x : Act σ α} {s : σ} (h : (x s).reports = []) :
    x.quiet? s = some (x s).value := by
  simp [quiet?, h]

end Act

namespace Scope

@[simp] theorem symbol_apply (sc : Scope) (name : String) (s : Linkage) :
    sc.symbol name s =
      ⟨(sc.state.symbolId s.symbols name).1,
        { s with symbols := (sc.state.symbolId s.symbols name).2 }, []⟩ := rfl

@[simp] theorem place_apply (sc : Scope) (name : String) (offset : Nat) (s : Linkage) :
    sc.place name offset s =
      ⟨(sc.state.locationId s.symbols name offset).1,
        { s with symbols := (sc.state.locationId s.symbols name offset).2 }, []⟩ := rfl

end Scope

end Sm83Asm
