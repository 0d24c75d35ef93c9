import ArmBackend.Error

/-!
# Steps

A step changes a state and can fail. A step that fails leaves the state as it was when it failed. The
lemmas say what each kind of step does to the state.
-/

namespace ArmBackend

abbrev StepM (σ : Type) := ExceptT CompileError (StateM σ)

namespace StepM

variable {σ α β : Type}

/-- The outcome of a step as a value. -/
def attempt (step : StepM σ α) : StepM σ (Except CompileError α) := ExceptT.lift step.run

@[simp] theorem run_pure (a : α) (s : σ) : (pure a : StepM σ α).run s = (.ok a, s) := rfl

@[simp] theorem run_throw (e : CompileError) (s : σ) :
    (throw e : StepM σ α).run s = (.error e, s) := rfl

@[simp] theorem run_get (s : σ) : (get : StepM σ σ).run s = (.ok s, s) := rfl

@[simp] theorem run_set (s t : σ) : (set t : StepM σ Unit).run s = (.ok (), t) := rfl

@[simp] theorem run_modify (f : σ → σ) (s : σ) :
    (modify f : StepM σ Unit).run s = (.ok (), f s) := rfl

@[simp] theorem run_monadLift (outcome : Except CompileError α) (s : σ) :
    (monadLift outcome : StepM σ α).run s = (outcome, s) := rfl

@[simp] theorem run_attempt (step : StepM σ α) (s : σ) :
    (attempt step).run s = (.ok (step.run s).1, (step.run s).2) := rfl

@[simp] theorem run_bind (step : StepM σ α) (next : α → StepM σ β) (s : σ) :
    (step >>= next).run s =
      match step.run s with
      | (.ok a, t) => (next a).run t
      | (.error e, t) => (.error e, t) := by
  simp only [bind, ExceptT.bind, ExceptT.run, ExceptT.mk, StateT.bind]
  rcases h : step s with ⟨e | a, t⟩ <;> rfl

@[simp] theorem run_map (f : α → β) (step : StepM σ α) (s : σ) :
    (f <$> step).run s =
      match step.run s with
      | (.ok a, t) => (.ok (f a), t)
      | (.error e, t) => (.error e, t) := by
  rw [map_eq_pure_bind, run_bind]
  rfl

@[simp] theorem run_ite (p : Prop) [Decidable p] (a b : StepM σ α) (s : σ) :
    (if p then a else b).run s = if p then a.run s else b.run s := by
  split <;> rfl

/-- A sequence succeeds when its first step does, and then the rest from the state in between. -/
theorem run_bind_eq_ok {step : StepM σ α} {next : α → StepM σ β} {s u : σ} {b : β} :
    (step >>= next).run s = (.ok b, u) ↔
      ∃ a t, step.run s = (.ok a, t) ∧ (next a).run t = (.ok b, u) := by
  rw [run_bind]
  rcases step.run s with ⟨e | a, t⟩
  · exact ⟨nofun, fun ⟨_, _, h, _⟩ => nomatch h⟩
  · exact ⟨fun h => ⟨a, t, rfl, h⟩, fun ⟨_, _, hstep, h⟩ => by cases hstep; exact h⟩

/-- The same for outcomes: a sequence succeeds when its first part does, and then the rest. -/
theorem outcome_bind_eq_ok {outcome : Except CompileError α} {next : α → Except CompileError β}
    {b : β} : (outcome >>= next) = .ok b ↔ ∃ a, outcome = .ok a ∧ next a = .ok b := by
  cases outcome with
  | error e => exact ⟨nofun, fun ⟨_, h, _⟩ => nomatch h⟩
  | ok a => exact ⟨fun h => ⟨a, rfl, h⟩, fun ⟨_, ha, h⟩ => by cases ha; exact h⟩

end StepM

end ArmBackend
