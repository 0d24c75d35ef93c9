import ArmBackend.Proofs.Frame.Steps
import Mathlib.Data.List.Basic

/-!
# Valid frames

The live slots of a frame lie one below the other, and each live register belongs to one temporary.
Every frame that operations lead to is of this kind, whether they succeed or fail.
-/

namespace ArmBackend

def Reservation.slot? (res : Reservation) : Option Slot :=
  res.offset?.map fun offset => ⟨offset.toNat, res.ty⟩

@[simp] theorem Slot.slot?_reservation (slot : Slot) : slot.reservation.slot? = some slot := rfl

@[simp] theorem Reservation.slot?_ofReg (ty : Ty) (reg : Register) :
    (Reservation.ofReg ty reg).slot? = none := rfl

@[simp] theorem Slot.register?_reservation (slot : Slot) : slot.reservation.register? = none := rfl

@[simp] theorem Reservation.register?_ofReg (ty : Ty) (reg : Register) :
    (Reservation.ofReg ty reg).register? = some reg := rfl

/-! ## Stacks of slots -/

/-- The slots, newest first, each below its padding and that below the next older slot. -/
inductive Stacked : List Slot → List Nat → Nat → Prop
  | nil : Stacked [] [] 0
  | cons {slots : List Slot} {paddings : List Nat} {position : Nat} (slot : Slot) (padding : Nat)
      (below : Stacked slots paddings position) (size : 0 < slot.ty.size)
      (offset : slot.offset = position + (padding + slot.ty.size)) :
      Stacked (slot :: slots) (padding :: paddings) slot.offset

namespace Stacked

variable {slots : List Slot} {paddings : List Nat} {position : Nat}

theorem bounds (h : Stacked slots paddings position) :
    ∀ slot ∈ slots, 0 < slot.ty.size ∧ slot.ty.size ≤ slot.offset ∧ slot.offset ≤ position := by
  induction h with
  | nil => exact nofun
  | cons slot padding _ size offset ih =>
    intro other hother
    rcases List.mem_cons.mp hother with rfl | hother
    · exact ⟨size, by omega, Nat.le_refl _⟩
    · have := ih other hother
      exact ⟨this.1, this.2.1, by omega⟩

theorem pairwise (h : Stacked slots paddings position) :
    slots.Pairwise fun newer older => older.offset + newer.ty.size ≤ newer.offset := by
  induction h with
  | nil => exact .nil
  | cons slot padding below _ offset ih =>
    refine .cons (fun older holder => ?_) ih
    have := below.bounds older holder
    omega

theorem disjoint (h : Stacked slots paddings position) {a b : Slot} (ha : a ∈ slots)
    (hb : b ∈ slots) :
    a = b ∨ a.offset + b.ty.size ≤ b.offset ∨ b.offset + a.ty.size ≤ a.offset := by
  induction h with
  | nil => exact absurd ha List.not_mem_nil
  | cons slot padding below size offset ih =>
    have hbounds := below.bounds
    rcases List.mem_cons.mp ha with rfl | ha' <;> rcases List.mem_cons.mp hb with rfl | hb'
    · exact Or.inl rfl
    · have := hbounds b hb'
      omega
    · have := hbounds a ha'
      omega
    · exact ih ha' hb'

theorem tail {slot : Slot} {padding : Nat}
    (h : Stacked (slot :: slots) (padding :: paddings) position) :
    padding + slot.ty.size ≤ position ∧
      Stacked slots paddings (position - (padding + slot.ty.size)) := by
  cases h with
  | @cons _ _ position _ _ below size offset =>
    rw [offset]
    refine ⟨by omega, ?_⟩
    rwa [Nat.add_sub_cancel]

theorem exists_padding {slot : Slot} (h : Stacked (slot :: slots) paddings position) :
    ∃ padding rest, paddings = padding :: rest := by
  cases h
  exact ⟨_, _, rfl⟩

end Stacked

namespace Frame

/-! ## Valid frames -/

/-- The live slots, newest first. No variable is newer than a temporary. -/
def slots (f : Frame) : List Slot := f.temporaries.filterMap Reservation.slot? ++ f.locals

def tempRegs (f : Frame) : List Register := f.temporaries.filterMap Reservation.register?

theorem mem_slots_of_local {f : Frame} {slot : Slot} (h : slot ∈ f.locals) : slot ∈ f.slots :=
  List.mem_append_right _ h

structure Valid (f : Frame) : Prop where
  stacked : Stacked f.slots f.paddings f.position
  live : ∀ reg, f.liveRegs.contains reg = true ↔ reg ∈ f.tempRegs
  nodup : f.tempRegs.Nodup
  bank : ∀ reg ∈ f.tempRegs, reg ∈ Register.tempBank
  /-- Every temporary is in a register or in a slot. -/
  assigned : ∀ res ∈ f.temporaries,
    0 < res.ty.size ∧ ((∃ reg, res.location = .reg reg) ∨ ∃ offset : Nat, res.location = .slot offset)
  highWater : f.position ≤ f.highWater

namespace Valid

variable {f g : Frame} {ty : Ty}

theorem empty : Valid {} where
  stacked := .nil
  live := fun reg => by
    rw [RegSet.contains_empty]
    exact ⟨nofun, nofun⟩
  nodup := .nil
  bank := nofun
  assigned := nofun
  highWater := Nat.le_refl _

theorem eq_of_offset (hf : Valid f) {a b : Slot} (ha : a ∈ f.slots) (hb : b ∈ f.slots)
    (h : a.offset = b.offset) : a = b := by
  have hbounds := hf.stacked.bounds
  rcases hf.stacked.disjoint ha hb with heq | hlt | hlt
  · exact heq
  · have := (hbounds b hb).1
    omega
  · have := (hbounds a ha).1
    omega

theorem of_rests (hf : Valid f) (h : Rests f g) : Valid g where
  stacked := by simpa only [slots, h.temporaries, h.locals, h.paddings, h.position] using hf.stacked
  live := by simpa only [tempRegs, h.temporaries, h.liveRegs] using hf.live
  nodup := by simpa only [tempRegs, h.temporaries] using hf.nodup
  bank := by simpa only [tempRegs, h.temporaries] using hf.bank
  assigned := by simpa only [h.temporaries] using hf.assigned
  highWater := by
    rw [h.position]
    exact Nat.le_trans hf.highWater h.highWater

theorem stacked_withSlot (hf : Valid f) (hsize : 0 < ty.size) :
    Stacked (⟨f.position + f.slotSize ty, ty⟩ :: f.slots) (f.withSlot ty).paddings
      (f.withSlot ty).position :=
  .cons ⟨f.position + f.slotSize ty, ty⟩ _ hf.stacked hsize rfl

theorem reserveVariable (hf : Valid f) {slot : Slot}
    (h : (Frame.reserveVariable ty).run f = (.ok slot, g)) : Valid g := by
  obtain ⟨hempty, hsize, rfl, rfl⟩ := reserveVariable_ok h
  have hstacked := hf.stacked_withSlot hsize
  simp only [slots, hempty, List.filterMap_nil, List.nil_append] at hstacked
  refine ⟨?_, hf.live, hf.nodup, hf.bank, hf.assigned, Nat.le_max_right _ _⟩
  simp only [slots, withSlot, hempty, List.filterMap_nil, List.nil_append]
  exact hstacked

theorem addVariable (hf : Valid f) {name : String} {slot : Slot}
    (h : (Frame.addVariable ty name).run f = (.ok slot, g)) : Valid g := by
  obtain ⟨slot', f', hreserve, h'⟩ := StepM.run_bind_eq_ok.mp h
  have hf' := hf.reserveVariable hreserve
  cases h'
  exact ⟨hf'.stacked, hf'.live, hf'.nodup, hf'.bank, hf'.assigned, hf'.highWater⟩

theorem reserveTemp (hf : Valid f) {res : Reservation}
    (h : (Frame.reserveTemp ty).run f = (.ok res, g)) : Valid g := by
  obtain ⟨hsize, ⟨reg, hbank, hfree, rfl, rfl⟩ | ⟨rfl, rfl⟩⟩ := reserveTemp_ok h
  · have hnot : reg ∉ f.tempRegs := fun hmem => by simp [(hf.live reg).mpr hmem] at hfree
    have hregs : tempRegs { f with
        liveRegs := f.liveRegs.insert reg
        temporaries := .ofReg ty reg :: f.temporaries } = reg :: f.tempRegs := rfl
    refine ⟨hf.stacked, fun other => ?_, ?_, ?_, fun res hres => ?_, hf.highWater⟩
    · rw [hregs]
      simp only [RegSet.contains_insert, Bool.or_eq_true, hf.live, decide_eq_true_eq,
        List.mem_cons]
      grind
    · rw [hregs]
      exact List.nodup_cons.mpr ⟨hnot, hf.nodup⟩
    · rw [hregs]
      grind [hf.bank]
    · rcases List.mem_cons.mp hres with rfl | hres
      · exact ⟨hsize, Or.inl ⟨reg, rfl⟩⟩
      · exact hf.assigned res hres
  · refine ⟨hf.stacked_withSlot hsize, hf.live, hf.nodup, hf.bank, fun res hres => ?_,
      Nat.le_max_right _ _⟩
    rcases List.mem_cons.mp hres with rfl | hres
    · exact ⟨hsize, Or.inr ⟨_, rfl⟩⟩
    · exact hf.assigned res hres

theorem dropSlot_run (hf : Valid f) {slot : Slot} {slots : List Slot}
    (h : f.slots = slot :: slots) (g : Frame) (hpaddings : g.paddings = f.paddings)
    (hposition : g.position = f.position) :
    ∃ paddings position, Stacked slots paddings position ∧ position ≤ f.position ∧
      (dropSlot slot.ty).run g = (.ok (), { g with paddings, position }) := by
  have hstacked := hf.stacked
  rw [h] at hstacked
  obtain ⟨padding, paddings, hp⟩ := hstacked.exists_padding
  rw [hp] at hstacked
  obtain ⟨hle, htail⟩ := hstacked.tail
  refine ⟨paddings, f.position - (padding + slot.ty.size), htail, by omega, ?_⟩
  rw [Frame.dropSlot_run, hpaddings, hp, hposition]
  exact if_neg (by omega)

theorem releaseVariable (hf : Valid f) : Valid (Frame.releaseVariable.run f).2 := by
  simp only [Frame.releaseVariable, requireNoTemporaries, StepM.run_bind, StepM.run_get,
    StepM.run_ite, StepM.run_pure, StepM.run_throw, List.isEmpty_iff]
  by_cases hempty : f.temporaries = []
  · simp only [if_pos hempty]
    cases hlocals : f.locals with
    | nil => exact hf
    | cons slot locals =>
      have hslots : f.slots = slot :: locals := by simp only [slots, hempty, hlocals]; rfl
      obtain ⟨paddings, position, hstacked, hle, hrun⟩ :=
        hf.dropSlot_run hslots { f with locals } rfl rfl
      simp only [StepM.run_bind, StepM.run_set, hrun]
      refine ⟨?_, hf.live, hf.nodup, hf.bank, hf.assigned, Nat.le_trans hle hf.highWater⟩
      simpa only [slots, hempty, List.filterMap_nil, List.nil_append] using hstacked
  · simp only [if_neg hempty]
    exact hf

theorem releaseTemp (hf : Valid f) : Valid (Frame.releaseTemp.run f).2 := by
  cases htemps : f.temporaries with
  | nil =>
    simp only [Frame.releaseTemp, StepM.run_bind, StepM.run_get, htemps]
    exact hf
  | cons res temporaries =>
    have hassigned : ∀ res ∈ temporaries, _ := fun res hres =>
      hf.assigned res (htemps ▸ List.mem_cons_of_mem _ hres)
    obtain ⟨location, ty⟩ := res
    obtain ⟨-, ⟨reg, rfl⟩ | ⟨offset, rfl⟩⟩ := hf.assigned _ (htemps ▸ List.mem_cons_self)
    · have hslots : f.slots = temporaries.filterMap Reservation.slot? ++ f.locals := by
        rw [slots, htemps]
        rfl
      have hregs : f.tempRegs = reg :: temporaries.filterMap Reservation.register? := by
        rw [tempRegs, htemps]
        rfl
      have hrun : (Frame.releaseTemp.run f).2 =
          { f with temporaries, liveRegs := f.liveRegs.erase reg } := by
        simp only [Frame.releaseTemp, StepM.run_bind, StepM.run_get, htemps]
        rfl
      have hstacked := hf.stacked
      have hnodup := hf.nodup
      have hlive := hf.live
      have hbank := hf.bank
      rw [hslots] at hstacked
      rw [hregs] at hnodup hlive hbank
      obtain ⟨hnot, hnodup⟩ := List.nodup_cons.mp hnodup
      rw [hrun]
      refine ⟨hstacked, fun other => ?_, hnodup, fun other hother => ?_, hassigned, hf.highWater⟩
      · change (f.liveRegs.erase reg).contains other = true ↔
          other ∈ temporaries.filterMap Reservation.register?
        simp only [RegSet.contains_erase, Bool.and_eq_true, decide_eq_true_eq, hlive other,
          List.mem_cons]
        grind
      · exact hbank other (List.mem_cons_of_mem _ hother)
    · have hslots : f.slots =
          ⟨offset, ty⟩ :: (temporaries.filterMap Reservation.slot? ++ f.locals) := by
        rw [slots, htemps]
        rfl
      have hregs : f.tempRegs = temporaries.filterMap Reservation.register? := by
        rw [tempRegs, htemps]
        rfl
      obtain ⟨paddings, position, hstacked, hle, hdrop⟩ :=
        hf.dropSlot_run hslots { f with temporaries } rfl rfl
      have hrun : (Frame.releaseTemp.run f).2 = { f with temporaries, paddings, position } := by
        simp only [Frame.releaseTemp, StepM.run_bind, StepM.run_get, htemps]
        exact congrArg Prod.snd hdrop
      have hnodup := hf.nodup
      have hlive := hf.live
      have hbank := hf.bank
      rw [hregs] at hnodup hlive hbank
      rw [hrun]
      exact ⟨hstacked, hlive, hnodup, hbank, hassigned, Nat.le_trans hle hf.highWater⟩

/-- An operation of the frame, whatever its outcome, keeps it valid. -/
theorem of_run {α : Type} {step : FrameM α} (hf : Valid f)
    (hok : ∀ a g, step.run f = (.ok a, g) → Valid g)
    (herror : ∀ e g, step.run f = (.error e, g) → g = f) : Valid (step.run f).2 := by
  rcases hrun : step.run f with ⟨e | a, g⟩
  · rw [herror e g hrun]
    exact hf
  · exact hok a g hrun

theorem atLoops (hf : Valid f) (loops : List Nat) : Valid { f with loops } :=
  ⟨hf.stacked, hf.live, hf.nodup, hf.bank, hf.assigned, hf.highWater⟩

theorem pushLoop (hf : Valid f) (id : Nat) : Valid (f.pushLoop id) := hf.atLoops _

theorem popLoop (hf : Valid f) : Valid f.popLoop := hf.atLoops _

end Valid

/-! ## Reachable frames -/

theorem takeSlot_error {e : CompileError} {f g : Frame} {ty : Ty}
    (h : (takeSlot ty).run f = (.error e, g)) : g = f := by
  rw [takeSlot_run] at h
  split at h <;> cases h
  rfl

theorem reserveVariable_error {e : CompileError} {f g : Frame} {ty : Ty}
    (h : (reserveVariable ty).run f = (.error e, g)) : g = f := by
  simp only [reserveVariable, requireNoTemporaries, StepM.run_bind, StepM.run_get, StepM.run_ite,
    StepM.run_pure, StepM.run_throw, StepM.run_modify] at h
  by_cases hempty : f.temporaries.isEmpty = true
  · simp only [if_pos hempty] at h
    rcases htake : (takeSlot ty).run f with ⟨e' | offset, f'⟩
    · rw [htake] at h
      cases h
      exact takeSlot_error htake
    · rw [htake] at h
      cases h
  · rw [if_neg hempty] at h
    cases h
    rfl

theorem addVariable_error {e : CompileError} {f g : Frame} {ty : Ty} {name : String}
    (h : (addVariable ty name).run f = (.error e, g)) : g = f := by
  simp only [addVariable, StepM.run_bind, StepM.run_modify, StepM.run_pure] at h
  rcases hreserve : (reserveVariable ty).run f with ⟨e' | slot, f'⟩
  · rw [hreserve] at h
    cases h
    exact reserveVariable_error hreserve
  · rw [hreserve] at h
    cases h

theorem reserveTemp_error {e : CompileError} {f g : Frame} {ty : Ty}
    (h : (reserveTemp ty).run f = (.error e, g)) : g = f := by
  simp only [reserveTemp] at h
  cases hstorable : ty.storable with
  | false =>
    simp only [hstorable] at h
    cases h
    rfl
  | true =>
    simp only [hstorable, StepM.run_bind, StepM.run_get, if_true] at h
    cases hfree : f.liveRegs.firstFree? Register.tempBank with
    | some reg =>
      simp only [hfree] at h
      cases h
    | none =>
      simp only [hfree, StepM.run_bind, StepM.run_modify, StepM.run_pure] at h
      rcases htake : (takeSlot ty).run f with ⟨e' | offset, f'⟩
      · rw [htake] at h
        cases h
        exact takeSlot_error htake
      · rw [htake] at h
        cases h

/-- The operations on the storage of a function body. -/
inductive Op where
  | addVariable (ty : Ty) (name : String)
  | reserveVariable (ty : Ty)
  | releaseVariable
  | reserveTemp (ty : Ty)
  | releaseTemp
  | pushLoop (id : Nat)
  | popLoop

/-- The frame that an operation leaves, whether it succeeds or fails. -/
def Op.apply (f : Frame) : Op → Frame
  | .addVariable ty name => ((Frame.addVariable ty name).run f).2
  | .reserveVariable ty => ((Frame.reserveVariable ty).run f).2
  | .releaseVariable => (Frame.releaseVariable.run f).2
  | .reserveTemp ty => ((Frame.reserveTemp ty).run f).2
  | .releaseTemp => (Frame.releaseTemp.run f).2
  | .pushLoop id => f.pushLoop id
  | .popLoop => f.popLoop

inductive Reachable : Frame → Prop
  | empty : Reachable {}
  | apply {f : Frame} (op : Op) (reachable : Reachable f) : Reachable (op.apply f)

theorem Valid.apply {f : Frame} (hf : Valid f) (op : Op) : Valid (op.apply f) := by
  cases op with
  | addVariable ty name => exact hf.of_run (fun _ _ => hf.addVariable) fun _ _ => addVariable_error
  | reserveVariable ty =>
    exact hf.of_run (fun _ _ => hf.reserveVariable) fun _ _ => reserveVariable_error
  | releaseVariable => exact hf.releaseVariable
  | reserveTemp ty => exact hf.of_run (fun _ _ => hf.reserveTemp) fun _ _ => reserveTemp_error
  | releaseTemp => exact hf.releaseTemp
  | pushLoop id => exact hf.pushLoop id
  | popLoop => exact hf.popLoop

theorem Reachable.valid {f : Frame} (h : Reachable f) : Valid f := by
  induction h with
  | empty => exact .empty
  | apply op _ hf => exact hf.apply op

end Frame

end ArmBackend
