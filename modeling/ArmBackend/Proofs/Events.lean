import ArmBackend.Proofs.Outcome

/-!
# Declarations, definitions and references

What a session is told of functions: that one is declared, that one is defined, and that one is referred to.
A step performs a first part of some events in turn if it changes nothing else of the function tables and of
the builtins in use. It does so also where it fails.
-/

namespace ArmBackend

inductive Event where
  | declare (signature : Signature)
  | define (signature : Signature)
  | refer (name : String)
deriving DecidableEq

def Event.refers (names : List String) : List Event := names.map .refer

namespace Session

variable {α β : Type} {σ τ : Session}

def roll (session : Session) : Options × List Signature × List Signature × List Builtin :=
  (session.options, session.declared, session.defined, session.usedBuiltins)

theorem roll_eq_iff : σ.roll = τ.roll ↔ σ.options = τ.options ∧ σ.declared = τ.declared ∧
    σ.defined = τ.defined ∧ σ.usedBuiltins = τ.usedBuiltins := by
  simp only [roll, Prod.mk.injEq]

theorem declare_run (signature : Signature) (σ : Session) : (declare signature).run σ =
    if conflicts σ.declared signature || conflicts σ.defined signature then
      (.error (.signatureConflict signature.name), σ)
    else (.ok (), { σ with declared := signature :: σ.declared }) := by
  simp only [declare, StepM.run_bind, StepM.run_get]
  split <;> rfl

theorem define_run (signature : Signature) (σ : Session) : (define signature).run σ =
    if conflicts σ.declared signature then (.error (.signatureConflict signature.name), σ)
    else if σ.isDefined signature.name then (.error (.redefinition signature.name), σ)
    else (.ok (), { σ with defined := signature :: σ.defined }) := by
  simp only [define, StepM.run_bind, StepM.run_get]
  split
  case isTrue => rfl
  case isFalse => split <;> rfl

end Session

namespace Event

variable {σ τ : Session}

/-- The session after the event. A declaration or definition that is refused changes nothing. -/
def perform (session : Session) : Event → Session
  | .declare signature => ((Session.declare signature).run session).2
  | .define signature => ((Session.define signature).run session).2
  | .refer name => session.markUsed name

theorem perform_declare (signature : Signature) (σ : Session) :
    ∃ declared, (declare signature).perform σ = { σ with declared } := by
  rw [perform, Session.declare_run]
  split
  · exact ⟨σ.declared, rfl⟩
  · exact ⟨_, rfl⟩

theorem perform_define (signature : Signature) (σ : Session) :
    ∃ defined, σ.defined ⊆ defined ∧ (define signature).perform σ = { σ with defined } := by
  rw [perform, Session.define_run]
  split
  · exact ⟨σ.defined, List.Subset.refl _, rfl⟩
  · split
    · exact ⟨σ.defined, List.Subset.refl _, rfl⟩
    · exact ⟨_, List.subset_cons_self _ _, rfl⟩

theorem roll_declare (signature : Signature) (σ : Session) : ((declare signature).perform σ).roll =
    if Session.conflicts σ.declared signature || Session.conflicts σ.defined signature then σ.roll
    else (σ.options, signature :: σ.declared, σ.defined, σ.usedBuiltins) := by
  rw [perform, Session.declare_run]
  split <;> rfl

theorem roll_define (signature : Signature) (σ : Session) : ((define signature).perform σ).roll =
    if Session.conflicts σ.declared signature || (Session.newest? σ.defined signature.name).isSome then σ.roll
    else (σ.options, σ.declared, signature :: σ.defined, σ.usedBuiltins) := by
  rw [perform, Session.define_run, Session.isDefined]
  cases Session.conflicts σ.declared signature <;>
    cases hnewest : (Session.newest? σ.defined signature.name).isSome <;> simp [Session.roll]

theorem roll_refer (name : String) (σ : Session) : ((refer name).perform σ).roll =
    match Builtin.ofName? name with
    | some builtin =>
      if (Session.newest? σ.defined name).isSome then σ.roll
      else (σ.options, σ.declared, σ.defined, σ.usedBuiltins.insert builtin)
    | none => σ.roll := by
  rw [perform, Session.markUsed, Session.isDefined]
  cases Builtin.ofName? name with
  | none => rfl
  | some builtin => simp only [apply_ite Session.roll]; rfl

theorem roll_perform (event : Event) (h : σ.roll = τ.roll) :
    (event.perform σ).roll = (event.perform τ).roll := by
  obtain ⟨hoptions, hdeclared, hdefined, hused⟩ := Session.roll_eq_iff.mp h
  cases event with
  | declare signature => rw [roll_declare, roll_declare, hoptions, hdeclared, hdefined, hused, h]
  | define signature => rw [roll_define, roll_define, hoptions, hdeclared, hdefined, hused, h]
  | refer name => rw [roll_refer, roll_refer, hoptions, hdeclared, hdefined, hused, h]

theorem roll_foldl (events : List Event) (h : σ.roll = τ.roll) :
    (events.foldl perform σ).roll = (events.foldl perform τ).roll := by
  induction events generalizing σ τ with
  | nil => exact h
  | cons event events ih => exact ih (event.roll_perform h)

end Event

namespace Session

variable {α β : Type} {events more : List Event} {step : CompileM α} {next : α → CompileM β}

/-- The step performs a first part of the events, and all of them if it succeeds. -/
def Performs (events : List Event) (step : CompileM α) : Prop :=
  ∀ σ, ∃ done, done <+: events ∧ (step.run σ).2.roll = (done.foldl Event.perform σ).roll ∧
    ∀ a, (step.run σ).1 = .ok a → done = events

namespace Performs

theorem quiet (h : ∀ σ, (step.run σ).2.roll = σ.roll) : Performs [] step :=
  fun σ => ⟨[], List.prefix_rfl, h σ, fun _ _ => rfl⟩

theorem pure (a : α) : Performs [] (pure a : CompileM α) := quiet fun _ => rfl

theorem lift (outcome : Except CompileError α) : Performs [] (monadLift outcome : CompileM α) :=
  quiet fun _ => rfl

theorem get : Performs [] (get : CompileM Session) := quiet fun _ => rfl

theorem refer (name : String) : Performs [.refer name] (modify (markUsed name) : CompileM Unit) :=
  fun _ => ⟨_, List.prefix_rfl, rfl, fun _ _ => rfl⟩

theorem modify {f : Session → Session} (h : ∀ σ, (f σ).roll = σ.roll) :
    Performs [] (modify f : CompileM Unit) := quiet h

theorem throw (e : CompileError) : Performs events (throw e : CompileM α) :=
  fun _ => ⟨[], List.nil_prefix, rfl, nofun⟩

theorem bind_of_ok (h : Performs events step)
    (hnext : ∀ {σ a τ}, step.run σ = (.ok a, τ) → Performs more (next a)) :
    Performs (events ++ more) (step >>= next) := by
  intro σ
  obtain ⟨done, hle, hroll, hall⟩ := h σ
  rw [StepM.run_bind]
  rcases hrun : step.run σ with ⟨e | a, τ⟩ <;> rw [hrun] at hroll hall
  · exact ⟨done, hle.trans (List.prefix_append events more), hroll, nofun⟩
  · obtain rfl := hall a rfl
    obtain ⟨done', hle', hroll', hall'⟩ := hnext hrun τ
    refine ⟨done ++ done', (List.prefix_append_right_inj done).mpr hle', ?_, fun b hb => ?_⟩
    · rw [List.foldl_append]
      exact hroll'.trans (Event.roll_foldl done' hroll)
    · rw [hall' b hb]

theorem bind (h : Performs events step) (hnext : ∀ a, Performs more (next a)) :
    Performs (events ++ more) (step >>= next) := h.bind_of_ok fun {_ a _} _ => hnext a

theorem bind_refers {names others : List String} (h : Performs (Event.refers names) step)
    (hnext : ∀ a, Performs (Event.refers others) (next a)) :
    Performs (Event.refers (names ++ others)) (step >>= next) := by
  rw [Event.refers, List.map_append]
  exact h.bind hnext

theorem bind_quiet (h : Performs events step) (hnext : ∀ a, Performs [] (next a)) :
    Performs events (step >>= next) := by
  rw [← List.append_nil events]
  exact h.bind hnext

theorem quiet_bind (h : Performs [] step) (hnext : ∀ a, Performs events (next a)) :
    Performs events (step >>= next) := h.bind hnext

theorem onFrame (operation : FrameM α) : Performs [] (onFrame operation) := quiet fun σ => by
  rw [onFrame_run]
  split <;> rfl

theorem attempt {next : Except CompileError α → CompileM β} (h : Performs events step)
    (hnext : ∀ outcome, Performs [] (next outcome))
    (hfails : ∀ e σ b, ((next (.error e)).run σ).1 ≠ .ok b) :
    Performs events (StepM.attempt step >>= next) := by
  intro σ
  obtain ⟨done, hle, hroll, hall⟩ := h σ
  rw [StepM.run_bind, StepM.run_attempt]
  obtain ⟨_, hnil, hroll', -⟩ := hnext (step.run σ).1 (step.run σ).2
  obtain rfl := List.prefix_nil.mp hnil
  refine ⟨done, hle, hroll'.trans hroll, fun b hb => ?_⟩
  cases houtcome : (step.run σ).1 with
  | error e =>
    rw [houtcome] at hb
    exact absurd hb (hfails e _ b)
  | ok a => exact hall a houtcome

theorem inLoop {id : Nat} (h : Performs events step) : Performs events (inLoop id step) := by
  refine .quiet_bind (.onFrame _) fun _ => .attempt h (fun outcome => ?_) fun e σ b => ?_
  · exact .quiet_bind (.onFrame _) fun _ => .lift outcome
  · rw [StepM.run_bind]
    split <;> nofun

theorem popFrame : Performs [] popFrame := quiet fun σ => by
  simp only [Session.popFrame, StepM.run_bind, StepM.run_get]
  cases σ.frames <;> rfl

theorem inFrame (h : Performs events step) : Performs events (inFrame step) := by
  refine .quiet_bind (.modify fun _ => rfl) fun _ => .attempt h (fun outcome => ?_) fun e σ b => ?_
  · exact .quiet_bind .popFrame fun frame => .quiet_bind (.lift outcome) fun _ => .pure _
  · rw [StepM.run_bind]
    split <;> nofun

theorem signatureOf (name : String) : Performs [] (signatureOf name) := quiet fun σ => by
  simp only [Session.signatureOf, StepM.run_bind, StepM.run_get]
  cases (newest? σ.declared name).or (newest? σ.defined name) <;> rfl

theorem intern (text : String) : Performs [] (intern text) := quiet fun _ => rfl

theorem freshIf : Performs [] freshIf := quiet fun _ => rfl

theorem freshLoop : Performs [] freshLoop := quiet fun _ => rfl

theorem declare (signature : Signature) : Performs [.declare signature] (declare signature) :=
  fun _ => ⟨_, List.prefix_rfl, rfl, fun _ _ => rfl⟩

theorem define (signature : Signature) : Performs [.define signature] (define signature) :=
  fun _ => ⟨_, List.prefix_rfl, rfl, fun _ _ => rfl⟩

theorem forM {ι : Type} {items : List ι} {each : ι → CompileM PUnit} {event : ι → Event}
    (h : ∀ item, Performs [event item] (each item)) : Performs (items.map event) (items.forM each) := by
  induction items with
  | nil => exact .pure _
  | cons item items ih => exact (h item).bind fun _ => ih

end Performs

end Session

end ArmBackend
