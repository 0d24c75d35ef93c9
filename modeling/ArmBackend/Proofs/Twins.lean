import ArmBackend.Proofs.Frame.Loops
import ArmBackend.Proofs.Machine.Relabel
import ArmBackend.Proofs.Outcome
import ArmBackend.Proofs.Session
import Mathlib.Data.List.Forall2

/-!
# Two runs of one lowering

Two sessions that know the same functions lower the same program side by side. What their histories left
them with shows in the numbers of the labels and nowhere else, and they count up by the same amounts.
-/

namespace ArmBackend

variable {α β : Type}

inductive SameOutcome (R : α → α → Prop) : Except CompileError α → Except CompileError α → Prop
  | ok {x y : α} (h : R x y) : SameOutcome R (.ok x) (.ok y)
  | error (e : CompileError) : SameOutcome R (.error e) (.error e)

theorem SameOutcome.refl {R : α → α → Prop} {outcome : Except CompileError α}
    (h : ∀ x, outcome = .ok x → R x x) : SameOutcome R outcome outcome := by
  cases outcome with
  | error e => exact .error e
  | ok x => exact .ok (h x rfl)

theorem SameOutcome.mono {R S : α → α → Prop} {outcome outcome' : Except CompileError α}
    (h : SameOutcome R outcome outcome') (hRS : ∀ {x y}, R x y → S x y) : SameOutcome S outcome outcome' := by
  cases h with
  | error e => exact .error e
  | ok hR => exact .ok (hRS hR)

/-- `x` is as far from `a` as `y` is from `b`. -/
def SameGrowth (a b x y : Nat) : Prop := ∃ n, x = a + n ∧ y = b + n

namespace SameGrowth

variable {a b x y : Nat}

theorem refl (a b : Nat) : SameGrowth a b a b := ⟨0, rfl, rfl⟩

theorem add (h : SameGrowth a b x y) (n : Nat) : SameGrowth a b (x + n) (y + n) := by
  obtain ⟨m, rfl, rfl⟩ := h
  exact ⟨m + n, Nat.add_assoc .., Nat.add_assoc ..⟩

theorem le (h : SameGrowth a b x y) : a ≤ x := by
  obtain ⟨n, rfl, -⟩ := h
  exact Nat.le_add_right a n

theorem shift (h : SameGrowth a b x y) : Relabelling.shift (a, b) x = some y := by
  obtain ⟨n, rfl, rfl⟩ := h
  exact Relabelling.shift_add a b n

end SameGrowth

structure Stats.InStep (a b s t : Stats) : Prop where
  functions : SameGrowth a.functions b.functions s.functions t.functions
  calls : SameGrowth a.calls b.calls s.calls t.calls
  spills : SameGrowth a.spills b.spills s.spills t.spills
  saves : SameGrowth a.saves b.saves s.saves t.saves
  labels : SameGrowth a.labels b.labels s.labels t.labels

theorem Stats.InStep.refl (a b : Stats) : Stats.InStep a b a b :=
  ⟨.refl _ _, .refl _ _, .refl _ _, .refl _ _, .refl _ _⟩

theorem Stats.InStep.recordFunction {a b s t : Stats} (h : Stats.InStep a b s t) (name : String)
    (spills frameSize : Nat) :
    Stats.InStep a b (s.recordFunction name spills frameSize) (t.recordFunction name spills frameSize) := by
  simp only [Stats.recordFunction]
  split <;> split <;>
    exact ⟨h.functions.add 1, h.calls, h.spills.add spills, h.saves, h.labels⟩

namespace Session

def signature? (session : Session) (name : String) : Option Signature :=
  (newest? session.declared name).or (newest? session.defined name)

def relabelling (a b σ τ : Session) : Relabelling where
  branches := (a.nextIf, b.nextIf)
  loops := (a.nextLoop, b.nextLoop)
  texts := (σ.data.texts, τ.data.texts)

/-- What lowering leaves alone: the options, the tables, and what is recorded of complete functions. -/
def settled (session : Session) : Options × List Signature × List Signature × Stats :=
  (session.options, session.declared, session.defined,
    { session.stats with calls := 0, saves := 0, labels := 0 })

/-- Two runs that began in `a` and `b`, each on its innermost frame, have come to `σ` and `τ`. The
frames differ in the ids of the enclosing loops only. -/
structure Twins (a b : Session) (r : Relabelling) (σ τ : Session) : Prop where
  left : σ.settled = a.settled
  right : τ.settled = b.settled
  options : σ.options = τ.options
  signatures : ∀ name, σ.signature? name = τ.signature? name
  relabelling : r = relabelling a b σ τ
  nextIf : SameGrowth a.nextIf b.nextIf σ.nextIf τ.nextIf
  nextLoop : SameGrowth a.nextLoop b.nextLoop σ.nextLoop τ.nextLoop
  stats : Stats.InStep a.stats b.stats σ.stats τ.stats
  frames : ∃ (f : Frame) (ids ids' : List Nat), σ.frames = f.setLoops ids :: a.frames.tail ∧
    τ.frames = f.setLoops ids' :: b.frames.tail ∧
    List.Forall₂ (fun id id' => Relabelling.shift r.loops id = some id') ids ids'

theorem Twins.opened {a b : Session} (hoptions : a.options = b.options)
    (hsignatures : ∀ name, a.signature? name = b.signature? name) :
    Twins { a with frames := {} :: a.frames } { b with frames := {} :: b.frames } (a.relabelling b a b)
      { a with frames := {} :: a.frames } { b with frames := {} :: b.frames } where
  left := rfl
  right := rfl
  options := hoptions
  signatures := hsignatures
  relabelling := rfl
  nextIf := .refl _ _
  nextLoop := .refl _ _
  stats := .refl _ _
  frames := ⟨{}, [], [], rfl, rfl, .nil⟩

/-- From sessions that two runs have come to, the steps do the same: they fail with the same error, or
yield values of which `R` holds under the labels so far. -/
def Tandem (a b : Session) (r : Relabelling) (step step' : CompileM α)
    (R : Relabelling → α → α → Prop) : Prop :=
  ∀ σ τ, Twins a b r σ τ → ∃ r', r.Later r' ∧ Twins a b r' (step.run σ).2 (step'.run τ).2 ∧
    SameOutcome (R r') (step.run σ).1 (step'.run τ).1

namespace Tandem

variable {a b : Session} {r : Relabelling} {step step' : CompileM α} {next next' : α → CompileM β}
  {Q : Relabelling → α → α → Prop} {R : Relabelling → β → β → Prop}

theorem pure {x y : α} (h : Q r x y) : Tandem a b r (pure x) (pure y) Q :=
  fun _ _ htwins => ⟨r, .refl r, htwins, .ok h⟩

theorem throw (e : CompileError) : Tandem a b r (throw e) (throw e) Q :=
  fun _ _ htwins => ⟨r, .refl r, htwins, .error e⟩

theorem lift {outcome outcome' : Except CompileError α} (h : SameOutcome (Q r) outcome outcome') :
    Tandem a b r (monadLift outcome) (monadLift outcome') Q :=
  fun _ _ htwins => ⟨r, .refl r, htwins, h⟩

theorem bind (h : Tandem a b r step step' Q)
    (hnext : ∀ r' x y, r.Later r' → Q r' x y → Tandem a b r' (next x) (next' y) R) :
    Tandem a b r (step >>= next) (step' >>= next') R := by
  intro σ τ htwins
  obtain ⟨r', hlater, htwins', houtcome⟩ := h σ τ htwins
  rw [StepM.run_bind, StepM.run_bind]
  generalize step.run σ = result, step'.run τ = result' at htwins' houtcome
  obtain ⟨x, σ'⟩ := result
  obtain ⟨y, τ'⟩ := result'
  cases houtcome with
  | error e => exact ⟨r', hlater, htwins', .error e⟩
  | ok hQ =>
    obtain ⟨r'', hlater', hrest⟩ := hnext r' _ _ hlater hQ σ' τ' htwins'
    exact ⟨r'', hlater.trans hlater', hrest⟩

theorem discard (h : Tandem a b r step step' Q) :
    Tandem a b r (discard step) (discard step') fun _ _ _ => True := by
  intro σ τ htwins
  obtain ⟨r', hlater, htwins', houtcome⟩ := h σ τ htwins
  rw [StepM.run_discard, StepM.run_discard]
  refine ⟨r', hlater, htwins', ?_⟩
  generalize (step.run σ).1 = outcome, (step'.run τ).1 = outcome' at houtcome
  cases houtcome with
  | error e => exact .error e
  | ok _ => exact .ok trivial

theorem still {Q : α → α → Prop} (h : ∀ σ τ, Twins a b r σ τ →
      Twins a b r (step.run σ).2 (step'.run τ).2 ∧ SameOutcome Q (step.run σ).1 (step'.run τ).1)
    (hnext : ∀ x y, Q x y → Tandem a b r (next x) (next' y) R) :
    Tandem a b r (step >>= next) (step' >>= next') R := by
  have hstep : Tandem a b r step step' fun r' x y => r' = r ∧ Q x y := fun σ τ htwins =>
    ⟨r, .refl r, (h σ τ htwins).1, (h σ τ htwins).2.mono fun hQ => ⟨rfl, hQ⟩⟩
  exact .bind hstep fun _ x y _ ⟨hr, hQ⟩ => hr ▸ hnext x y hQ

theorem check {outcome : Except CompileError α}
    (hnext : ∀ x, outcome = .ok x → Tandem a b r (next x) (next' x) R) :
    Tandem a b r (monadLift outcome >>= next) (monadLift outcome >>= next') R :=
  still (Q := fun x y => outcome = .ok x ∧ x = y)
    (fun _ _ htwins => ⟨htwins, .refl fun _ hok => ⟨hok, rfl⟩⟩)
    fun x _ ⟨hok, heq⟩ => heq ▸ hnext x hok

theorem modify {next next' : Unit → CompileM β} {f : Session → Session}
    (h : ∀ σ τ, Twins a b r σ τ → Twins a b r (f σ) (f τ)) (hnext : Tandem a b r (next ()) (next' ()) R) :
    Tandem a b r (modify f >>= next) (modify f >>= next') R :=
  still (Q := Eq) (fun σ τ htwins => ⟨h σ τ htwins, .ok rfl⟩) fun _ _ _ => hnext

theorem get {next next' : Session → CompileM β}
    (hnext : ∀ σ τ, σ.options = τ.options → Tandem a b r (next σ) (next' τ) R) :
    Tandem a b r (get >>= next) (get >>= next') R :=
  still (fun _ _ htwins => ⟨htwins, .ok htwins.options⟩) hnext

theorem onFrame {operation : FrameM α} (h : Frame.Loopless operation)
    (hnext : ∀ x, Tandem a b r (next x) (next' x) R) :
    Tandem a b r (onFrame operation >>= next) (onFrame operation >>= next') R := by
  refine still (Q := Eq) (fun σ τ htwins => ?_) fun x _ heq => heq ▸ hnext x
  obtain ⟨f, ids, ids', hσ, hτ, hids⟩ := htwins.frames
  simp only [onFrame_run, hσ, hτ, h ids f, h ids' f]
  exact ⟨{ htwins with frames := ⟨_, ids, ids', rfl, rfl, hids⟩ }, .refl fun _ _ => rfl⟩

/-! ## Labels, texts and loops -/

theorem freshIf {next next' : Nat → CompileM β}
    (hnext : ∀ id id', Relabelling.shift r.branches id = some id' → Tandem a b r (next id) (next' id') R) :
    Tandem a b r (freshIf >>= next) (freshIf >>= next') R := by
  refine still (fun σ τ htwins => ⟨?_, .ok ?_⟩) hnext
  · exact { htwins with
      nextIf := htwins.nextIf.add 1
      stats := { htwins.stats with labels := htwins.stats.labels.add 3 } }
  · rw [htwins.relabelling]
    exact htwins.nextIf.shift

theorem freshLoop {next next' : Nat → CompileM β}
    (hnext : ∀ id id', Relabelling.shift r.loops id = some id' → Tandem a b r (next id) (next' id') R) :
    Tandem a b r (freshLoop >>= next) (freshLoop >>= next') R := by
  refine still (fun σ τ htwins => ⟨?_, .ok ?_⟩) hnext
  · exact { htwins with
      nextLoop := htwins.nextLoop.add 1
      stats := { htwins.stats with labels := htwins.stats.labels.add 3 } }
  · rw [htwins.relabelling]
    exact htwins.nextLoop.shift

theorem intern (text : String) :
    Tandem a b r (intern text) (intern text) fun r label label' => r.label label = some label' := by
  intro σ τ htwins
  obtain rfl := htwins.relabelling
  have hrun : ∀ session : Session, (Session.intern text).run session =
      (.ok (session.data.intern text).1, { session with data := (session.data.intern text).2 }) := fun _ => rfl
  obtain ⟨hσ, id, hlabel, hid⟩ := intern_ok (hrun σ)
  obtain ⟨hτ, id', hlabel', hid'⟩ := intern_ok (hrun τ)
  rw [hrun, hrun]
  refine ⟨relabelling a b { σ with data := (σ.data.intern text).2 } { τ with data := (τ.data.intern text).2 },
    ?_, ?_, .ok ?_⟩
  · exact ⟨rfl, rfl, hσ.texts, hτ.texts⟩
  · exact { htwins with relabelling := rfl }
  · obtain ⟨hlt, htext, -⟩ := List.idxOf?_eq_some_iff.mp hid
    have hget := List.getElem?_eq_some_iff.mpr ⟨hlt, htext⟩
    rw [hlabel, hlabel']
    refine Option.map_eq_some_iff.mpr ⟨id', ?_, rfl⟩
    exact Option.bind_eq_some_iff.mpr ⟨text, hget, hid'⟩

theorem signatureOf (name : String) {next next' : Signature → CompileM β}
    (hnext : ∀ signature, Tandem a b r (next signature) (next' signature) R) :
    Tandem a b r (signatureOf name >>= next) (signatureOf name >>= next') R := by
  refine still (Q := Eq) (fun σ τ htwins => ?_) fun signature _ heq => heq ▸ hnext signature
  have hrun : ∀ session : Session, (Session.signatureOf name).run session =
      ((session.signature? name).elim (.error (.undefinedFunction name)) .ok, session) := fun session => by
    simp only [signature?, Session.signatureOf, StepM.run_bind, StepM.run_get]
    cases (newest? session.declared name).or (newest? session.defined name) <;> rfl
  rw [hrun, hrun, htwins.signatures name]
  exact ⟨htwins, .refl fun _ _ => rfl⟩

theorem inLoop {id id' : Nat} (hid : Relabelling.shift r.loops id = some id')
    (h : Tandem a b r step step' Q) : Tandem a b r (inLoop id step) (inLoop id' step') Q := by
  intro σ τ htwins
  obtain ⟨f, ids, ids', hσ, hτ, hids⟩ := htwins.frames
  have hentered : Twins a b r { σ with frames := (f.setLoops ids).pushLoop id :: a.frames.tail }
      { τ with frames := (f.setLoops ids').pushLoop id' :: b.frames.tail } :=
    { htwins with frames := ⟨f, id :: ids, id' :: ids', rfl, rfl, .cons hid hids⟩ }
  obtain ⟨r', hlater, htwins', houtcome⟩ := h _ _ hentered
  obtain ⟨g, ids₁, ids₁', hσ', hτ', hids₁⟩ := htwins'.frames
  rcases hrun : step.run { σ with frames := (f.setLoops ids).pushLoop id :: a.frames.tail } with ⟨x, σ'⟩
  rcases hrun' : step'.run { τ with frames := (f.setLoops ids').pushLoop id' :: b.frames.tail } with ⟨y, τ'⟩
  rw [hrun] at hσ' htwins' houtcome
  rw [hrun'] at hτ' htwins' houtcome
  rw [inLoop_run hσ hrun hσ', inLoop_run hτ hrun' hτ']
  have hleft : List.Forall₂ (fun id id' => Relabelling.shift r'.loops id = some id') ids₁.tail ids₁'.tail := by
    cases hids₁ with
    | nil => exact .nil
    | cons _ hrest => exact hrest
  exact ⟨r', hlater, { htwins' with frames := ⟨g, ids₁.tail, ids₁'.tail, rfl, rfl, hleft⟩ }, houtcome⟩

theorem currentLoop? {next next' : Option Nat → CompileM β}
    (hnone : Tandem a b r (next none) (next' none) R)
    (hsome : ∀ id id', Relabelling.shift r.loops id = some id' →
      Tandem a b r (next (some id)) (next' (some id')) R) :
    Tandem a b r (Session.onFrame (Frame.currentLoop? <$> MonadState.get) >>= next)
      (Session.onFrame (Frame.currentLoop? <$> MonadState.get) >>= next') R := by
  refine still (Q := Option.Rel fun id id' => Relabelling.shift r.loops id = some id')
    (fun σ τ htwins => ?_) fun x y hxy => ?_
  · obtain ⟨f, ids, ids', hσ, hτ, hids⟩ := htwins.frames
    simp only [onFrame_run, hσ, hτ, StepM.run_map, StepM.run_get]
    refine ⟨{ htwins with frames := ⟨f, ids, ids', rfl, rfl, hids⟩ }, .ok ?_⟩
    cases hids with
    | nil => exact .none
    | cons hid _ => exact .some hid
  · cases hxy with
    | none => exact hnone
    | some hid => exact hsome _ _ hid

end Tandem

/-- In two runs the step makes the same code, each under its own labels. -/
def Uniform (a b : Session) (r : Relabelling) (step : CompileM Code) : Prop :=
  Tandem a b r step step Relabelling.Turns

/-! ## Statistics -/

namespace Twins

variable {a b σ τ : Session} {r : Relabelling}

theorem recordCall (h : Twins a b r σ τ) : Twins a b r σ.recordCall τ.recordCall :=
  { h with stats := { h.stats with calls := h.stats.calls.add 1 } }

theorem recordSaves (h : Twins a b r σ τ) (count : Nat) :
    Twins a b r (σ.recordSaves count) (τ.recordSaves count) :=
  { h with stats := { h.stats with saves := h.stats.saves.add count } }

theorem markUsed (h : Twins a b r σ τ) (name : String) : Twins a b r (σ.markUsed name) (τ.markUsed name) := by
  obtain ⟨used, hσ⟩ := markUsed_eq name σ
  obtain ⟨used', hτ⟩ := markUsed_eq name τ
  rw [hσ, hτ]
  exact { h with }

end Twins

end Session

end ArmBackend
