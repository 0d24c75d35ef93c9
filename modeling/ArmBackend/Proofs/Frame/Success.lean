import ArmBackend.Assembly.Operation
import ArmBackend.Proofs.Frame.Valid
import ArmBackend.Proofs.Session

/-!
# Steps that succeed

When operations of a frame succeed, and when code can be made for reservations.
-/

namespace ArmBackend

namespace StepM

variable {σ α β : Type} {step : StepM σ α} {next : α → StepM σ β} {s t : σ} {a : α}

def Succeeds (step : StepM σ α) (s : σ) : Prop := ∃ a t, step.run s = (.ok a, t)

theorem Succeeds.of_ok (h : step.run s = (.ok a, t)) : step.Succeeds s := ⟨a, t, h⟩

theorem succeeds_bind :
    (step >>= next).Succeeds s ↔ ∃ a t, step.run s = (.ok a, t) ∧ (next a).Succeeds t := by
  constructor
  · rintro ⟨b, u, h⟩
    obtain ⟨a, t, hstep, hnext⟩ := run_bind_eq_ok.mp h
    exact ⟨a, t, hstep, b, u, hnext⟩
  · rintro ⟨a, t, hstep, b, u, hnext⟩
    exact ⟨b, u, run_bind_eq_ok.mpr ⟨a, t, hstep, hnext⟩⟩

theorem succeeds_bind_of_ok (h : step.run s = (.ok a, t)) :
    (step >>= next).Succeeds s ↔ (next a).Succeeds t := by
  rw [succeeds_bind]
  constructor
  · rintro ⟨a', t', h', hnext⟩
    cases h.symm.trans h'
    exact hnext
  · exact fun hnext => ⟨a, t, h, hnext⟩

theorem succeeds_bind_iff {P Q : Prop} (hstep : step.Succeeds s ↔ P)
    (hnext : ∀ a t, step.run s = (.ok a, t) → ((next a).Succeeds t ↔ Q)) :
    (step >>= next).Succeeds s ↔ P ∧ Q := by
  rw [succeeds_bind]
  constructor
  · rintro ⟨a, t, h, hsucceeds⟩
    exact ⟨hstep.mp (.of_ok h), (hnext a t h).mp hsucceeds⟩
  · rintro ⟨hP, hQ⟩
    obtain ⟨a, t, h⟩ := hstep.mpr hP
    exact ⟨a, t, h, (hnext a t h).mpr hQ⟩

theorem Succeeds.bind_iff {Q : Prop} (hstep : step.Succeeds s)
    (hnext : ∀ a t, step.run s = (.ok a, t) → ((next a).Succeeds t ↔ Q)) :
    (step >>= next).Succeeds s ↔ Q := by
  rw [succeeds_bind_iff (iff_true_intro hstep) hnext, true_and]

theorem Succeeds.bind (hstep : step.Succeeds s)
    (hnext : ∀ a t, step.run s = (.ok a, t) → (next a).Succeeds t) : (step >>= next).Succeeds s :=
  (hstep.bind_iff fun a t h => iff_true_intro (hnext a t h)).mpr trivial

theorem succeeds_bind_left (hnext : ∀ a t, step.run s = (.ok a, t) → (next a).Succeeds t) :
    (step >>= next).Succeeds s ↔ step.Succeeds s := by
  rw [succeeds_bind_iff Iff.rfl fun a t h => iff_true_intro (hnext a t h), and_true]

@[simp] theorem succeeds_pure (a : α) (s : σ) : (pure a : StepM σ α).Succeeds s := ⟨a, s, rfl⟩

@[simp] theorem succeeds_throw (e : CompileError) (s : σ) : ¬ (throw e : StepM σ α).Succeeds s := nofun

theorem succeeds_lift {outcome : Except CompileError α} :
    (monadLift outcome : StepM σ α).Succeeds s ↔ ∃ a, outcome = .ok a := by
  constructor
  · rintro ⟨a, t, h⟩
    exact ⟨a, (Prod.mk.inj h).1⟩
  · rintro ⟨a, rfl⟩
    exact ⟨a, s, rfl⟩

theorem succeeds_lift_bind {outcome : Except CompileError α} :
    ((monadLift outcome : StepM σ α) >>= next).Succeeds s ↔
      ∃ a, outcome = .ok a ∧ (next a).Succeeds s := by
  rw [succeeds_bind]
  constructor
  · rintro ⟨a, t, h, hnext⟩
    obtain ⟨rfl, rfl⟩ := Prod.mk.inj h
    exact ⟨a, rfl, hnext⟩
  · rintro ⟨a, rfl, hnext⟩
    exact ⟨a, s, rfl, hnext⟩

end StepM

/-! ## Frames -/

theorem Ty.storable_iff {ty : Ty} : ty.storable = true ↔ 0 < ty.size := by
  simp [Ty.storable]

namespace Frame

open StepM (succeeds_bind succeeds_bind_of_ok)

variable {f : Frame} {ty : Ty}

theorem takeSlot_run_ok (h : 0 < ty.size) (f : Frame) :
    (takeSlot ty).run f = (.ok (f.position + f.slotSize ty), f.withSlot ty) := by
  rw [takeSlot_run, if_neg (by omega)]
  rfl

theorem reserveVariable_succeeds :
    (reserveVariable ty).Succeeds f ↔ f.temporaries = [] ∧ 0 < ty.size := by
  constructor
  · rintro ⟨slot, g, h⟩
    obtain ⟨hempty, hsize, -, -⟩ := reserveVariable_ok h
    exact ⟨hempty, hsize⟩
  · rintro ⟨hempty, hsize⟩
    have hrequire : (requireNoTemporaries .reserve).run f = (.ok (), f) := by
      simp [requireNoTemporaries, hempty]
    rw [reserveVariable, succeeds_bind_of_ok hrequire, succeeds_bind_of_ok (takeSlot_run_ok hsize f)]
    exact ⟨_, _, rfl⟩

theorem addVariable_succeeds {name : String} :
    (addVariable ty name).Succeeds f ↔ f.temporaries = [] ∧ 0 < ty.size := by
  rw [addVariable, succeeds_bind, ← reserveVariable_succeeds]
  constructor
  · rintro ⟨slot, g, h, -⟩
    exact ⟨slot, g, h⟩
  · rintro ⟨slot, g, h⟩
    exact ⟨slot, g, h, _, _, rfl⟩

theorem resolve_succeeds {name : String} :
    (resolve name).Succeeds f ↔ name ∈ f.symbols.map Prod.fst := by
  have hlookup : (f.symbols.lookup name).isSome = true ↔ name ∈ f.symbols.map Prod.fst := by
    simp [List.lookup_isSome_iff]
  rw [← hlookup, Option.isSome_iff_exists]
  constructor
  · rintro ⟨slot, g, h⟩
    exact ⟨slot, (resolve_ok h).1⟩
  · rintro ⟨slot, h⟩
    exact ⟨slot, f, by simp [resolve, h]⟩

theorem reserveTemp_succeeds : (reserveTemp ty).Succeeds f ↔ 0 < ty.size := by
  constructor
  · rintro ⟨res, g, h⟩
    exact (reserveTemp_ok h).1
  · intro hsize
    have hstorable : ty.storable = true := Ty.storable_iff.mpr hsize
    simp only [reserveTemp, hstorable, StepM.Succeeds, StepM.run_bind, StepM.run_get, if_true]
    cases f.liveRegs.firstFree? Register.tempBank with
    | some reg => exact ⟨_, _, rfl⟩
    | none =>
      simp only [StepM.run_bind, takeSlot_run_ok hsize]
      exact ⟨_, _, rfl⟩

theorem Valid.releaseTemp_succeeds (hf : f.Valid) (h : f.temporaries ≠ []) :
    Frame.releaseTemp.Succeeds f := by
  obtain ⟨res, temporaries, htemps⟩ := List.exists_cons_of_ne_nil h
  have hassigned := hf.assigned res (htemps ▸ List.mem_cons_self)
  obtain ⟨location, ty⟩ := res
  obtain ⟨-, ⟨reg, rfl⟩ | ⟨offset, rfl⟩⟩ := hassigned
  · simp [StepM.Succeeds, Frame.releaseTemp, htemps, Reservation.register?]
  · have hslots : f.slots = ⟨offset, ty⟩ :: (temporaries.filterMap Reservation.slot? ++ f.locals) := by
      rw [slots, htemps]
      rfl
    obtain ⟨paddings, position, -, -, hrun⟩ :=
      hf.dropSlot_run hslots { f with temporaries } rfl rfl
    refine ⟨(), { f with temporaries, paddings, position }, ?_⟩
    simp only [Frame.releaseTemp, StepM.run_bind, StepM.run_get, htemps, StepM.run_set]
    exact hrun

theorem Valid.releaseVariable_succeeds (hf : f.Valid) (hempty : f.temporaries = [])
    (h : f.locals ≠ []) : Frame.releaseVariable.Succeeds f := by
  obtain ⟨slot, locals, hlocals⟩ := List.exists_cons_of_ne_nil h
  have hslots : f.slots = slot :: locals := by
    rw [slots, hempty, hlocals]
    rfl
  obtain ⟨paddings, position, -, -, hrun⟩ := hf.dropSlot_run hslots { f with locals } rfl rfl
  refine ⟨(), { f with locals, paddings, position }, ?_⟩
  simp only [Frame.releaseVariable, requireNoTemporaries, hempty, List.isEmpty_nil, StepM.run_bind,
    StepM.run_get, if_true, StepM.run_pure, hlocals, StepM.run_set]
  simpa only [hempty] using hrun

end Frame

theorem Session.onFrame_succeeds {α : Type} {operation : FrameM α} {σ : Session} {f : Frame}
    {fs : List Frame} (hf : σ.frames = f :: fs) :
    (onFrame operation).Succeeds σ ↔ operation.Succeeds f := by
  have hrun := onFrame_run operation σ
  rw [hf] at hrun
  constructor
  · rintro ⟨a, τ, h⟩
    exact ⟨a, _, Prod.ext (Prod.mk.inj (hrun.symm.trans h)).1 rfl⟩
  · rintro ⟨a, g, h⟩
    simp only [h] at hrun
    exact ⟨a, _, hrun⟩

/-! ## Code -/

namespace Code

variable {source target res : Reservation}

theorem copy_isOk (hsource : source.isAssigned = true) (htarget : target.isAssigned = true) :
    ∃ code, copy source target = .ok code := by
  obtain ⟨source, sourceTy⟩ := source
  obtain ⟨target, targetTy⟩ := target
  rw [copy]
  split
  · exact ⟨_, rfl⟩
  · cases target with
    | unassigned => cases htarget
    | _ =>
      cases source with
      | unassigned => cases hsource
      | _ => exact ⟨_, rfl⟩

theorem putConstant_isOk (htarget : target.isAssigned = true) (bits : Word) :
    ∃ code, putConstant target bits = .ok code := by
  obtain ⟨location, ty⟩ := target
  cases location with
  | unassigned => cases htarget
  | reg reg => exact ⟨_, rfl⟩
  | slot offset => exact ⟨_, rfl⟩

theorem operandOf_isOk (h : res.isAssigned = true) : ∃ load src, operandOf res = .ok (load, src) := by
  obtain ⟨location, ty⟩ := res
  cases location with
  | unassigned => cases h
  | reg reg => exact ⟨_, _, rfl⟩
  | slot offset => exact ⟨_, _, rfl⟩

end Code

@[simp] theorem Reservation.isAssigned_inRegister (res : Reservation) (reg : Register) :
    (res.inRegister reg).isAssigned = true := rfl

@[simp] theorem Reservation.isAssigned_ofReg (ty : Ty) (reg : Register) :
    (Reservation.ofReg ty reg).isAssigned = true := rfl

@[simp] theorem Slot.isAssigned_reservation (slot : Slot) : slot.reservation.isAssigned = true := rfl

variable {target : Reservation}

theorem BinOp.code_isOk (op : BinOp) {lhs rhs : Reservation} (htarget : target.isAssigned = true)
    (hlhs : lhs.isAssigned = true) (hrhs : rhs.isAssigned = true) :
    ∃ code, op.code target lhs rhs = .ok code := by
  obtain ⟨setup, hsetup⟩ := Code.copy_isOk hlhs (target.isAssigned_inRegister target.stagingRegister)
  obtain ⟨load, src, hload⟩ := Code.operandOf_isOk hrhs
  obtain ⟨finish, hfinish⟩ :=
    Code.copy_isOk (target.isAssigned_inRegister target.stagingRegister) htarget
  simp only [BinOp.code, hsetup, hload, hfinish]
  exact ⟨_, rfl⟩

theorem UnOp.code_isOk {op : UnOp} {operand : Reservation} (htarget : target.isAssigned = true)
    (hoperand : operand.isAssigned = true) (haccepts : op.accepts operand.ty = true)
    (hop : op ≠ .addrOf) : ∃ code, op.code target operand = .ok code := by
  obtain ⟨load, src, hload⟩ := Code.operandOf_isOk hoperand
  obtain ⟨finish, hfinish⟩ :=
    Code.copy_isOk (target.isAssigned_inRegister target.stagingRegister) htarget
  cases op with
  | addrOf => exact absurd rfl hop
  | deref =>
    cases hty : operand.ty with
    | ptr pointee =>
      simp only [UnOp.code, hload, hfinish, hty, Ty.pointee?]
      exact ⟨_, rfl⟩
    | _ =>
      rw [hty] at haccepts
      cases haccepts
  | _ =>
    simp only [UnOp.code, hload, hfinish]
    exact ⟨_, rfl⟩

end ArmBackend
