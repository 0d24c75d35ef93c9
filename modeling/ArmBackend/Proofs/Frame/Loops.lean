import ArmBackend.Frame

/-!
# Frames and the loops around them

Storage and names have no part in the enclosing loops: an operation on them does the same under any loops
and keeps them.
-/

namespace ArmBackend.Frame

def setLoops (loops : List Nat) (f : Frame) : Frame := { f with loops }

section

variable (loops : List Nat) (f : Frame)

@[simp] theorem setLoops_locals : (f.setLoops loops).locals = f.locals := rfl

@[simp] theorem setLoops_temporaries : (f.setLoops loops).temporaries = f.temporaries := rfl

@[simp] theorem setLoops_liveRegs : (f.setLoops loops).liveRegs = f.liveRegs := rfl

@[simp] theorem setLoops_symbols : (f.setLoops loops).symbols = f.symbols := rfl

@[simp] theorem setLoops_position : (f.setLoops loops).position = f.position := rfl

@[simp] theorem setLoops_paddings : (f.setLoops loops).paddings = f.paddings := rfl

end

def Loopless {α : Type} (operation : FrameM α) : Prop :=
  ∀ loops f, operation.run (f.setLoops loops) =
    ((operation.run f).1, (operation.run f).2.setLoops loops)

namespace Loopless

variable {α β : Type} {operation : FrameM α}

theorem pure (a : α) : Loopless (pure a : FrameM α) := fun _ _ => rfl

theorem throw (e : CompileError) : Loopless (throw e : FrameM α) := fun _ _ => rfl

theorem modify {change : Frame → Frame}
    (h : ∀ loops f, change (f.setLoops loops) = (change f).setLoops loops) :
    Loopless (modify change : FrameM Unit) := fun loops f => by
  rw [StepM.run_modify, StepM.run_modify, h]

theorem bind {next : α → FrameM β} (h : Loopless operation) (hnext : ∀ a, Loopless (next a)) :
    Loopless (operation >>= next) := fun loops f => by
  rw [StepM.run_bind, StepM.run_bind, h loops f]
  rcases operation.run f with ⟨e | a, g⟩
  · rfl
  · exact hnext a loops g

theorem read {part : Frame → α} (h : ∀ loops f, part (f.setLoops loops) = part f) :
    Loopless (part <$> get : FrameM α) := fun loops f => by
  simp only [StepM.run_map, StepM.run_get, h]

/-! ## Slots and variables -/

theorem takeSlot (ty : Ty) : Loopless (takeSlot ty) := fun loops f => by
  rw [takeSlot_run, takeSlot_run]
  split <;> rfl

theorem dropSlot (ty : Ty) : Loopless (dropSlot ty) := fun loops f => by
  rw [dropSlot_run, dropSlot_run, setLoops_paddings]
  cases f.paddings with
  | nil => rfl
  | cons padding paddings =>
    rw [setLoops_position]
    dsimp only
    split <;> rfl

theorem requireNoTemporaries (action : VariableAction) : Loopless (requireNoTemporaries action) :=
  fun loops f => by
    simp only [Frame.requireNoTemporaries, StepM.run_bind, StepM.run_get, StepM.run_ite, StepM.run_pure,
      StepM.run_throw]
    by_cases hquiet : f.temporaries.isEmpty = true <;> simp [hquiet]

theorem reserveVariable (ty : Ty) : Loopless (reserveVariable ty) :=
  .bind (requireNoTemporaries .reserve) fun _ => .bind (takeSlot ty) fun _ =>
    .bind (.modify fun _ _ => rfl) fun _ => .pure _

theorem releaseVariable : Loopless releaseVariable :=
  .bind (requireNoTemporaries .release) fun _ loops f => by
    simp only [StepM.run_bind, StepM.run_get, setLoops_locals]
    cases f.locals with
    | nil => rfl
    | cons slot locals => exact dropSlot slot.ty loops { f with locals }

theorem addVariable (ty : Ty) (name : String) : Loopless (addVariable ty name) :=
  .bind (reserveVariable ty) fun _ => .bind (.modify fun _ _ => rfl) fun _ => .pure _

theorem resolve (name : String) : Loopless (resolve name) := fun loops f => by
  simp only [Frame.resolve, StepM.run_bind, StepM.run_get, setLoops_symbols]
  split <;> rfl

/-! ## Temporaries -/

theorem reserveTemp (ty : Ty) : Loopless (reserveTemp ty) := by
  rw [Frame.reserveTemp]
  split
  · intro loops f
    simp only [StepM.run_bind, StepM.run_get, setLoops_liveRegs]
    cases f.liveRegs.firstFree? Register.tempBank with
    | some reg => rfl
    | none => exact Loopless.bind (takeSlot ty) (fun _ => .bind (.modify fun _ _ => rfl) fun _ => .pure _) loops f
  · exact .throw _

theorem releaseTemp : Loopless releaseTemp := fun loops f => by
  simp only [Frame.releaseTemp, StepM.run_bind, StepM.run_get, setLoops_temporaries]
  cases f.temporaries with
  | nil => rfl
  | cons res temporaries =>
    simp only [StepM.run_bind, StepM.run_set]
    cases res.register? with
    | some reg => rfl
    | none => exact dropSlot res.ty loops { f with temporaries }

end Loopless

end ArmBackend.Frame
