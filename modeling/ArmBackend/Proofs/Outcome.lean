import ArmBackend.Session

/-!
# Steps whatever their outcome

What a step leaves as it was even if it fails, and which errors it can fail with.
-/

namespace ArmBackend

namespace CompileError

def reportsLeak : CompileError → Bool
  | .internal (.temporariesAfterFunction ..) | .internal .temporariesAfterExpression => true
  | _ => false

def Sealed (e : CompileError) : Prop := e.reportsLeak = false

def External (e : CompileError) : Prop := e.kind ≠ .internal

theorem External.sealed {e : CompileError} (h : e.External) : e.Sealed := by
  cases e with
  | internal defect => exact absurd rfl h
  | _ => rfl

end CompileError

variable {σ α β γ : Type} {E F : CompileError → Prop}

def Allows (E : CompileError → Prop) (outcome : Except CompileError α) : Prop :=
  ∀ e, outcome = .error e → E e

namespace Allows

variable {outcome : Except CompileError α} {next : α → Except CompileError β} {e : CompileError}

theorem ok (a : α) : Allows E (.ok a) := nofun

theorem error (he : E e) : Allows E (.error e : Except CompileError α) := fun _ h =>
  Except.error.inj h ▸ he

theorem of_ok {a : α} (h : outcome = .ok a) : Allows E outcome := h ▸ ok a

theorem bind (h : Allows E outcome) (hnext : ∀ a, Allows E (next a)) :
    Allows E (outcome >>= next) := by
  cases outcome with
  | error e => exact error (h e rfl)
  | ok a => exact hnext a

theorem mono (h : Allows E outcome) (hEF : ∀ e, E e → F e) : Allows F outcome :=
  fun e he => hEF e (h e he)

theorem ite {p : Prop} [Decidable p] {a b : Except CompileError α} (ha : Allows E a)
    (hb : Allows E b) : Allows E (if p then a else b) := by
  split <;> assumption

end Allows

namespace StepM

/-! ## Steps that yield nothing -/

variable {step : StepM σ α} {s t : σ}

theorem run_discard (step : StepM σ α) (s : σ) :
    (discard step).run s = (((step.run s).1.map fun _ => ()), (step.run s).2) := by
  change ((fun _ => ()) <$> step).run s = _
  rw [run_map]
  rcases step.run s with ⟨e | a, t⟩ <;> rfl

theorem ok_of_discard {u : PUnit} (h : (discard step).run s = (.ok u, t)) :
    ∃ a, step.run s = (.ok a, t) := by
  rw [run_discard] at h
  rcases hrun : step.run s with ⟨e | a, t⟩ <;> rw [hrun] at h <;> cases h
  exact ⟨a, rfl⟩

theorem error_of_discard {e : CompileError} (h : (discard step).run s = (.error e, t)) :
    step.run s = (.error e, t) := by
  rw [run_discard] at h
  rcases hrun : step.run s with ⟨e' | a, t⟩ <;> rw [hrun] at h <;> cases h
  rfl

/-! ## What a step upholds -/

theorem allows_bind {next : α → StepM σ β} (h : Allows E (step.run s).1)
    (hnext : ∀ a t, step.run s = (.ok a, t) → Allows E ((next a).run t).1) :
    Allows E ((step >>= next).run s).1 := by
  rw [run_bind]
  rcases hrun : step.run s with ⟨e | a, t⟩ <;> rw [hrun] at h
  · exact .error (h e rfl)
  · exact hnext a t hrun

/-- From this state the step leaves the view as it was, also if it fails, and fails only as `E`
allows. -/
structure Upholds (view : σ → γ) (E : CompileError → Prop) (step : StepM σ α) (s : σ) : Prop where
  view : view (step.run s).2 = view s
  allows : Allows E (step.run s).1

namespace Upholds

variable {view : σ → γ} {next : α → StepM σ β} {e : CompileError}

theorem pure (a : α) : (pure a : StepM σ α).Upholds view E s := ⟨rfl, .ok a⟩

theorem throw (he : E e) : (throw e : StepM σ α).Upholds view E s := ⟨rfl, .error he⟩

theorem lift {outcome : Except CompileError α} (h : Allows E outcome) :
    (monadLift outcome : StepM σ α).Upholds view E s := ⟨rfl, h⟩

theorem set {t : σ} (h : view t = view s) : (set t : StepM σ Unit).Upholds view E s := ⟨h, .ok ()⟩

theorem modify {f : σ → σ} (h : view (f s) = view s) :
    (modify f : StepM σ Unit).Upholds view E s := ⟨h, .ok ()⟩

theorem bind (h : step.Upholds view E s)
    (hnext : ∀ a t, step.run s = (.ok a, t) → (next a).Upholds view E t) :
    (step >>= next).Upholds view E s where
  view := by
    have hview := h.view
    rw [run_bind]
    rcases hrun : step.run s with ⟨e | a, t⟩ <;> rw [hrun] at hview
    · exact hview
    · exact (hnext a t hrun).view.trans hview
  allows := allows_bind h.allows fun a t hrun => (hnext a t hrun).allows

theorem get_bind {next : σ → StepM σ β} (h : (next s).Upholds view E s) :
    (get >>= next).Upholds view E s :=
  bind ⟨rfl, .ok s⟩ fun _ _ hrun => by cases hrun; exact h

theorem discard (h : step.Upholds view E s) : (discard step).Upholds view E s where
  view := by rw [run_discard, h.view]
  allows := fun e he => h.allows e (congrArg Prod.fst (error_of_discard (Prod.ext he rfl)))

end Upholds

end StepM

namespace Session

open StepM (Upholds)

variable {session : Session} {f : Frame} {fs : List Frame}

/-- The frames below the innermost one, and the loops of that one. -/
def outline (session : Session) : List Frame × Option (List Nat) :=
  (session.frames.tail, session.frames.head?.map Frame.loops)

def sketch (session : Session) : (List Frame × Option (List Nat)) × Nat × Nat :=
  (session.outline, session.nextIf, session.nextLoop)

theorem frames_of_outline {τ : Session} (h : τ.outline = session.outline)
    (hf : session.frames = f :: fs) : ∃ g, τ.frames = g :: fs ∧ g.loops = f.loops := by
  obtain ⟨htail, hhead⟩ := Prod.mk.inj h
  simp only [hf, List.tail_cons, List.head?_cons, Option.map_some] at htail hhead
  cases hframes : τ.frames with
  | nil =>
    rw [hframes] at hhead
    cases hhead
  | cons g gs =>
    rw [hframes] at htail hhead
    exact ⟨g, by rw [← htail]; rfl, Option.some.inj hhead⟩

theorem onFrame_upholds {operation : FrameM α} (hnone : session.frames = [] → E (.internal .noFrame))
    (h : ∀ {f fs}, session.frames = f :: fs → operation.Upholds Frame.loops E f) :
    (onFrame operation).Upholds outline E session := by
  have hrun := onFrame_run operation session
  cases hframes : session.frames with
  | nil =>
    rw [hframes] at hrun
    refine ⟨?_, ?_⟩ <;> rw [hrun]
    exact .error (hnone hframes)
  | cons f fs =>
    rw [hframes] at hrun
    obtain ⟨hview, hallows⟩ := h hframes
    refine ⟨?_, ?_⟩ <;> rw [hrun]
    · simp only [outline, hframes, List.tail_cons, List.head?_cons, Option.map_some, hview]
    · exact hallows

/-- The loop is left whatever the outcome of the step. -/
theorem inLoop_run {id : Nat} {step : CompileM α} {outcome : Except CompileError α} {τ : Session} {g : Frame}
    {gs : List Frame} (hf : session.frames = f :: fs)
    (hstep : step.run { session with frames := f.pushLoop id :: fs } = (outcome, τ))
    (hg : τ.frames = g :: gs) :
    (inLoop id step).run session = (outcome, { τ with frames := g.popLoop :: gs }) := by
  simp only [inLoop, StepM.run_bind, onFrame_run, hf, StepM.run_modify, StepM.run_attempt, hstep, hg,
    StepM.run_monadLift]

theorem inLoop_upholds {id : Nat} {step : CompileM α}
    (hnone : session.frames = [] → E (.internal .noFrame))
    (h : ∀ {f fs}, session.frames = f :: fs →
      step.Upholds outline E { session with frames := f.pushLoop id :: fs }) :
    (inLoop id step).Upholds outline E session := by
  cases hframes : session.frames with
  | nil =>
    have hrun : (inLoop id step).run session = (.error (.internal .noFrame), session) := by
      simp only [inLoop, StepM.run_bind, onFrame_run, hframes]
    refine ⟨?_, ?_⟩ <;> rw [hrun]
    exact .error (hnone hframes)
  | cons f fs =>
    obtain ⟨hview, hallows⟩ := h hframes
    obtain ⟨g, hg, hloops⟩ := frames_of_outline hview (f := f.pushLoop id) rfl
    rcases hstep : step.run { session with frames := f.pushLoop id :: fs } with ⟨outcome, τ⟩
    rw [hstep] at hg hallows
    refine ⟨?_, ?_⟩ <;> rw [inLoop_run hframes hstep hg]
    · simp only [outline, hframes, List.tail_cons, List.head?_cons, Option.map_some, Frame.popLoop,
        hloops, Frame.pushLoop]
    · exact hallows

theorem inFrame_run_of_frames {step : CompileM α} {outcome : Except CompileError α} {τ : Session} {g : Frame}
    {gs : List Frame} (hstep : step.run { session with frames := {} :: session.frames } = (outcome, τ))
    (hg : τ.frames = g :: gs) :
    (inFrame step).run session = (outcome.map (·, g), { τ with frames := gs }) := by
  simp only [inFrame, pushFrame, popFrame, StepM.run_bind, StepM.run_modify, StepM.run_attempt,
    StepM.run_get, hstep, hg, StepM.run_set, StepM.run_pure, StepM.run_monadLift]
  cases outcome <;> rfl

theorem inFrame_upholds {step : CompileM α}
    (h : step.Upholds outline E { session with frames := {} :: session.frames }) :
    (inFrame step).Upholds outline E session := by
  obtain ⟨hview, hallows⟩ := h
  obtain ⟨g, hg, -⟩ := frames_of_outline hview (f := {}) rfl
  rcases hstep : step.run { session with frames := {} :: session.frames } with ⟨outcome, τ⟩
  rw [hstep] at hg hallows
  refine ⟨?_, ?_⟩ <;> rw [inFrame_run_of_frames hstep hg]
  · rfl
  · cases outcome with
    | error e => exact .error (hallows e rfl)
    | ok a => exact .ok _

end Session

end ArmBackend
