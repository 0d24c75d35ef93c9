import ArmBackend.Proofs.Frame.Faults
import Mathlib.Data.List.Induction

/-!
# Histories of a frame

What holds of a frame after any sequence of operations, the failing ones included: where its live
temporaries and variables lie, what its peaks say about the past, and how an operation can fail.
-/

namespace ArmBackend

/-- The bytes of a slot, by their distance from the frame pointer. -/
def Slot.Holds (slot : Slot) (distance : Int) : Prop :=
  -slot.offset ≤ distance ∧ distance < slot.ty.size - slot.offset

namespace Frame

/-! ## The order of temporaries -/

/-- Temporaries, newest first. The oldest ones have the registers of the bank in its order, and the
others have none. -/
def Banked : List Reservation → Prop
  | [] => True
  | res :: older => res.register? = Register.tempBank[older.length]? ∧ Banked older

namespace Banked

variable {temporaries : List Reservation}

theorem register (h : Banked temporaries) {i : Nat} {res : Reservation}
    (hres : temporaries.reverse[i]? = some res) : res.register? = Register.tempBank[i]? := by
  induction temporaries with
  | nil => simp at hres
  | cons newest older ih =>
    rw [List.reverse_cons, List.getElem?_append, List.length_reverse] at hres
    split at hres
    · exact ih h.2 hres
    · have hi : i = older.length := by
        obtain ⟨hlt, -⟩ := List.getElem?_eq_some_iff.mp hres
        simp only [List.length_singleton] at hlt
        omega
      subst hi
      simp only [Nat.sub_self, List.getElem?_cons_zero, Option.some.injEq] at hres
      exact hres ▸ h.1

theorem registers (h : Banked temporaries) :
    temporaries.filterMap Reservation.register? =
      (Register.tempBank.take temporaries.length).reverse := by
  induction temporaries with
  | nil => rfl
  | cons newest older ih =>
    rw [List.filterMap_cons, h.1, ih h.2, List.length_cons, List.take_add_one, List.reverse_append]
    cases Register.tempBank[older.length]? <;> rfl

end Banked

theorem find?_notMem_take (n : Nat) :
    Register.tempBank.find? (fun reg => decide (reg ∉ Register.tempBank.take n)) =
      Register.tempBank[n]? := by
  by_cases hn : n < Register.tempBank.length
  · revert n
    decide
  · rw [List.take_of_length_le (by omega), List.getElem?_eq_none (by omega)]
    decide

theorem filter_mem_take (n : Nat) :
    Register.tempBank.filter (fun reg => decide (reg ∈ Register.tempBank.take n)) =
      Register.tempBank.take n := by
  by_cases hn : n < Register.tempBank.length
  · revert n
    decide
  · rw [List.take_of_length_le (by omega)]
    decide

/-! ## Orderly frames -/

structure Orderly (f : Frame) : Prop extends Valid f where
  banked : Banked f.temporaries
  aligned : ∀ slot ∈ f.slots, slot.ty.size ∣ slot.offset

namespace Orderly

variable {f g : Frame} {ty : Ty}

theorem empty : Orderly {} := ⟨.empty, trivial, nofun⟩

theorem tempRegs_eq (hf : Orderly f) :
    f.tempRegs = (Register.tempBank.take f.temporaries.length).reverse := hf.banked.registers

theorem contains_eq (hf : Orderly f) :
    f.liveRegs.contains =
      fun reg => decide (reg ∈ Register.tempBank.take f.temporaries.length) := by
  funext reg
  rw [Bool.eq_iff_iff, decide_eq_true_eq, hf.live, hf.tempRegs_eq, List.mem_reverse]

theorem firstFree?_eq (hf : Orderly f) :
    f.liveRegs.firstFree? Register.tempBank = Register.tempBank[f.temporaries.length]? := by
  rw [← find?_notMem_take, RegSet.firstFree?, hf.contains_eq]
  simp only [decide_not]

theorem liveTempRegs_eq (hf : Orderly f) :
    f.liveTempRegs = f.temporaries.reverse.filterMap Reservation.register? := by
  rw [liveTempRegs, hf.contains_eq, filter_mem_take, List.filterMap_reverse, hf.banked.registers,
    List.reverse_reverse]

end Orderly

/-! ## What an operation does -/

structure Recedes (f g : Frame) : Prop where
  temporaries : g.temporaries <:+ f.temporaries
  locals : g.locals <:+ f.locals
  position : g.position ≤ f.position
  highWater : g.highWater = f.highWater
  spills : g.spills = f.spills

theorem Recedes.refl (f : Frame) : Recedes f f :=
  ⟨List.suffix_rfl, List.suffix_rfl, Nat.le_refl _, rfl, rfl⟩

inductive Effect (f : Frame) : Bool → Frame → Prop
  | recede {g : Frame} (recedes : Recedes f g) : Effect f false g
  | declare (ty : Ty) (symbols : List (String × Slot)) (size : 0 < ty.size)
      (quiet : f.temporaries = []) :
      Effect f false { f.withSlot ty with
        locals := ⟨f.position + f.slotSize ty, ty⟩ :: f.locals, symbols }
  | register (ty : Ty) (reg : Register) (free : f.liveRegs.firstFree? Register.tempBank = some reg) :
      Effect f false { f with
        liveRegs := f.liveRegs.insert reg
        temporaries := .ofReg ty reg :: f.temporaries }
  | spill (ty : Ty) (size : 0 < ty.size) (full : f.liveRegs.firstFree? Register.tempBank = none) :
      Effect f true { f.withSlot ty with
        spills := f.spills + 1
        temporaries := Slot.reservation ⟨f.position + f.slotSize ty, ty⟩ :: f.temporaries }

/-- Whether an operation reserves a temporary in a slot. -/
def Op.spills (f : Frame) : Op → Bool
  | .reserveTemp ty =>
    match ((Frame.reserveTemp ty).run f).1 with
    | .ok res => res.offset?.isSome
    | .error _ => false
  | _ => false

theorem reserveTemp_effect (f : Frame) (ty : Ty) :
    Effect f (Op.spills f (.reserveTemp ty)) ((Frame.reserveTemp ty).run f).2 := by
  simp only [Op.spills, Frame.reserveTemp]
  cases hstorable : ty.storable with
  | false => exact .recede (.refl f)
  | true =>
    simp only [StepM.run_bind, StepM.run_get, if_true]
    cases hfree : f.liveRegs.firstFree? Register.tempBank with
    | some reg => exact .register ty reg hfree
    | none =>
      have hsize := Ty.storable_iff.mp hstorable
      simp only [StepM.run_bind, takeSlot_run_ok hsize]
      exact .spill ty hsize hfree

theorem addVariable_effect (f : Frame) (ty : Ty) (name : String) :
    Effect f false ((Frame.addVariable ty name).run f).2 := by
  rcases hrun : (Frame.addVariable ty name).run f with ⟨e | slot, g⟩
  · cases addVariable_error hrun
    exact .recede (.refl f)
  · obtain ⟨hempty, hsize, rfl, rfl⟩ := addVariable_ok hrun
    exact .declare ty _ hsize hempty

theorem reserveVariable_effect (f : Frame) (ty : Ty) :
    Effect f false ((Frame.reserveVariable ty).run f).2 := by
  rcases hrun : (Frame.reserveVariable ty).run f with ⟨e | slot, g⟩
  · cases reserveVariable_error hrun
    exact .recede (.refl f)
  · obtain ⟨hempty, hsize, rfl, rfl⟩ := reserveVariable_ok hrun
    exact .declare ty f.symbols hsize hempty

theorem Valid.releaseVariable_recedes {f : Frame} (hf : f.Valid) :
    Recedes f (Frame.releaseVariable.run f).2 := by
  rcases hrun : Frame.releaseVariable.run f with ⟨e | ⟨⟩, g⟩
  · obtain ⟨-, rfl⟩ := hf.releaseVariable_fault hrun
    exact .refl g
  · obtain ⟨-, slot, padding, locals, paddings, hlocals, -, rfl⟩ := releaseVariable_ok hrun
    exact ⟨List.suffix_rfl, hlocals ▸ List.suffix_cons _ _, Nat.sub_le _ _, rfl, rfl⟩

theorem Valid.releaseTemp_recedes {f : Frame} (hf : f.Valid) :
    Recedes f (Frame.releaseTemp.run f).2 := by
  rcases hrun : Frame.releaseTemp.run f with ⟨e | ⟨⟩, g⟩
  · obtain ⟨-, -, rfl⟩ := hf.releaseTemp_fault hrun
    exact .refl g
  · obtain ⟨res, temporaries, htemps, ⟨reg, -, rfl⟩ | ⟨padding, paddings, -, -, rfl⟩⟩ :=
      releaseTemp_ok hrun
    · exact ⟨htemps ▸ List.suffix_cons _ _, List.suffix_rfl, Nat.le_refl _, rfl, rfl⟩
    · exact ⟨htemps ▸ List.suffix_cons _ _, List.suffix_rfl, Nat.sub_le _ _, rfl, rfl⟩

theorem Valid.effect {f : Frame} (hf : f.Valid) (op : Op) : Effect f (op.spills f) (op.apply f) := by
  cases op with
  | addVariable ty name => exact addVariable_effect f ty name
  | reserveVariable ty => exact reserveVariable_effect f ty
  | releaseVariable => exact .recede hf.releaseVariable_recedes
  | reserveTemp ty => exact reserveTemp_effect f ty
  | releaseTemp => exact .recede hf.releaseTemp_recedes
  | pushLoop id => exact .recede ⟨List.suffix_rfl, List.suffix_rfl, Nat.le_refl _, rfl, rfl⟩
  | popLoop => exact .recede ⟨List.suffix_rfl, List.suffix_rfl, Nat.le_refl _, rfl, rfl⟩

/-! ## What an operation keeps -/

theorem Banked.of_suffix {older temporaries : List Reservation} (h : Banked temporaries)
    (hsuffix : older <:+ temporaries) : Banked older := by
  induction temporaries with
  | nil => exact List.suffix_nil.mp hsuffix ▸ h
  | cons newest rest ih =>
    rcases List.suffix_cons_iff.mp hsuffix with rfl | hsuffix
    · exact h
    · exact ih h.2 hsuffix

namespace Recedes

variable {f g : Frame}

theorem slots_subset (h : Recedes f g) : g.slots ⊆ f.slots := by
  intro slot hslot
  rcases List.mem_append.mp hslot with htemp | hlocal
  · exact List.mem_append_left _ ((h.temporaries.sublist.filterMap _).subset htemp)
  · exact List.mem_append_right _ (h.locals.subset hlocal)

end Recedes

theorem dvd_withSlot (f : Frame) {ty : Ty} (hsize : 0 < ty.size) :
    ty.size ∣ f.position + f.slotSize ty := by
  rw [slotSize, ← Nat.add_assoc]
  exact Nat.dvd_add (Nat.dvd_of_mod_eq_zero (add_paddingTo_mod _ hsize)) (Nat.dvd_refl _)

namespace Effect

variable {f g : Frame} {spilled : Bool}

theorem banked (hf : f.Orderly) (h : Effect f spilled g) : Banked g.temporaries := by
  cases h with
  | recede hrecedes => exact hf.banked.of_suffix hrecedes.temporaries
  | declare => exact hf.banked
  | register ty reg hfree => exact ⟨(hf.firstFree?_eq ▸ hfree).symm, hf.banked⟩
  | spill ty _ hfull => exact ⟨(hf.firstFree?_eq ▸ hfull).symm, hf.banked⟩

theorem aligned (hf : f.Orderly) (h : Effect f spilled g) :
    ∀ slot ∈ g.slots, slot.ty.size ∣ slot.offset := by
  have hnew : ∀ {ty : Ty}, 0 < ty.size →
      ∀ slot ∈ (⟨f.position + f.slotSize ty, ty⟩ :: f.slots : List Slot),
        slot.ty.size ∣ slot.offset := fun hsize =>
    List.forall_mem_cons.mpr ⟨dvd_withSlot f hsize, hf.aligned⟩
  cases h with
  | recede hrecedes => exact fun slot hslot => hf.aligned slot (hrecedes.slots_subset hslot)
  | declare ty symbols hsize hquiet =>
    intro slot hslot
    refine hnew hsize slot ?_
    simpa only [slots, withSlot, hquiet, List.filterMap_nil, List.nil_append] using hslot
  | register => exact hf.aligned
  | spill ty hsize => exact hnew hsize

theorem highWater (hf : f.Valid) (h : Effect f spilled g) :
    g.highWater = max f.highWater g.position := by
  cases h with
  | recede hrecedes =>
    rw [hrecedes.highWater, Nat.max_eq_left (Nat.le_trans hrecedes.position hf.highWater)]
  | declare => rfl
  | register => exact (Nat.max_eq_left hf.highWater).symm
  | spill => rfl

theorem spills (h : Effect f spilled g) : g.spills = f.spills + spilled.toNat := by
  cases h with
  | recede hrecedes => exact hrecedes.spills
  | declare => rfl
  | register => rfl
  | spill => rfl

end Effect

theorem Orderly.apply {f : Frame} (hf : f.Orderly) (op : Op) : (op.apply f).Orderly where
  toValid := hf.toValid.apply op
  banked := (hf.effect op).banked hf
  aligned := (hf.effect op).aligned hf

/-! ## How an operation fails -/

def Op.step : Op → FrameM Unit
  | .addVariable ty name => discard (Frame.addVariable ty name)
  | .reserveVariable ty => discard (Frame.reserveVariable ty)
  | .releaseVariable => Frame.releaseVariable
  | .reserveTemp ty => discard (Frame.reserveTemp ty)
  | .releaseTemp => Frame.releaseTemp
  | .pushLoop id => modify (Frame.pushLoop id)
  | .popLoop => modify Frame.popLoop

theorem Op.step_run (op : Op) (f : Frame) : (op.step.run f).2 = op.apply f := by
  cases op <;> first | rfl | rw [Op.step, StepM.run_discard]; rfl

theorem Valid.fault {f g : Frame} {e : CompileError} (hf : f.Valid) {op : Op}
    (h : op.step.run f = (.error e, g)) :
    e ≠ .internal .slotReleasedTwice ∧ e ≠ .internal .positionUnderflow := by
  cases op with
  | addVariable ty name =>
    rcases addVariable_fault (StepM.error_of_discard h) with rfl | ⟨rfl, -⟩ <;> exact ⟨nofun, nofun⟩
  | reserveVariable ty =>
    rcases reserveVariable_fault (StepM.error_of_discard h) with rfl | ⟨rfl, -⟩ <;> exact ⟨nofun, nofun⟩
  | releaseVariable =>
    rcases hf.releaseVariable_fault h with ⟨⟨rfl, -⟩ | ⟨rfl, -⟩, -⟩ <;> exact ⟨nofun, nofun⟩
  | reserveTemp ty =>
    cases reserveTemp_fault (StepM.error_of_discard h)
    exact ⟨nofun, nofun⟩
  | releaseTemp =>
    cases (hf.releaseTemp_fault h).1
    exact ⟨nofun, nofun⟩
  | pushLoop id => cases h
  | popLoop => cases h

/-! ## Histories -/

/-- The frame that operations leave of a new one, whether they succeed or fail. -/
def after (ops : List Op) : Frame := ops.foldl (fun f op => (op.step.run f).2) {}

def spilled (f : Frame) : List Op → Nat
  | [] => 0
  | op :: ops => (op.spills f).toNat + spilled (op.step.run f).2 ops

theorem after_concat (ops : List Op) (op : Op) : after (ops ++ [op]) = op.apply (after ops) := by
  rw [after, List.foldl_concat, ← after, Op.step_run]

theorem orderly_after (ops : List Op) : (after ops).Orderly := by
  induction ops using List.reverseRecOn with
  | nil => exact .empty
  | append_singleton ops op ih => exact after_concat ops op ▸ ih.apply op

theorem foldl_spills {f : Frame} (hf : f.Valid) (ops : List Op) :
    (ops.foldl (fun f op => (op.step.run f).2) f).spills = f.spills + spilled f ops := by
  induction ops generalizing f with
  | nil => rfl
  | cons op ops ih =>
    simp only [List.foldl_cons, spilled, Op.step_run] at ih ⊢
    rw [ih (hf.apply op), (hf.effect op).spills, Nat.add_assoc]

theorem position_le_highWater {earlier ops : List Op} (h : earlier <+: ops) :
    (after earlier).position ≤ (after ops).highWater := by
  induction ops using List.reverseRecOn with
  | nil =>
    rw [List.prefix_nil.mp h]
    exact (orderly_after []).highWater
  | append_singleton ops op ih =>
    rcases List.prefix_concat_iff.mp h with rfl | h
    · exact (orderly_after _).highWater
    · have hvalid := (orderly_after ops).toValid
      rw [after_concat, (hvalid.effect op).highWater hvalid]
      exact Nat.le_trans (ih h) (Nat.le_max_left _ _)

theorem exists_highWater (ops : List Op) :
    ∃ earlier, earlier <+: ops ∧ (after earlier).position = (after ops).highWater := by
  induction ops using List.reverseRecOn with
  | nil => exact ⟨[], List.nil_prefix, rfl⟩
  | append_singleton ops op ih =>
    obtain ⟨earlier, hearlier, hposition⟩ := ih
    have hvalid := (orderly_after ops).toValid
    have hmax := (hvalid.effect op).highWater hvalid
    rcases Nat.le_total (op.apply (after ops)).position (after ops).highWater with hle | hle
    · refine ⟨earlier, hearlier.trans (List.prefix_append _ _), ?_⟩
      rw [after_concat, hmax, hposition, Nat.max_eq_left hle]
    · refine ⟨ops ++ [op], List.prefix_rfl, ?_⟩
      rw [after_concat, hmax, Nat.max_eq_right hle]

/-- How the parts of a frame fit together. -/
structure Consistent (f : Frame) : Prop where
  /-- The eight oldest temporaries are in the registers of the bank, in its order. -/
  register : ∀ {i : Nat} {res : Reservation}, i < 8 → f.temporaries.reverse[i]? = some res →
    ∃ reg, Register.tempBank[i]? = some reg ∧ res.location = .reg reg
  /-- The others are in slots. -/
  slot : ∀ {i : Nat} {res : Reservation}, 8 ≤ i → f.temporaries.reverse[i]? = some res →
    ∃ offset : Nat, res.location = .slot offset
  live : f.liveTempRegs = f.temporaries.reverse.filterMap Reservation.register?
  apart : f.slots.Pairwise fun a b => ∀ distance, ¬(a.Holds distance ∧ b.Holds distance)
  placed : ∀ slot ∈ f.slots, 0 < slot.offset ∧ slot.ty.size ∣ slot.offset ∧
    slot.ty.size ≤ slot.offset ∧ slot.offset ≤ f.position
  position : f.position = (f.slots.head?.map Slot.offset).getD 0

theorem Stacked.position_eq {slots : List Slot} {paddings : List Nat} {position : Nat}
    (h : Stacked slots paddings position) : position = (slots.head?.map Slot.offset).getD 0 := by
  cases h <;> rfl

theorem Orderly.consistent {f : Frame} (hf : f.Orderly) : f.Consistent where
  register := fun {i res} hi hres => by
    have hbank := hf.banked.register hres
    have hlength : i < Register.tempBank.length := hi
    rw [List.getElem?_eq_getElem hlength] at hbank ⊢
    refine ⟨_, rfl, ?_⟩
    obtain ⟨location, ty⟩ := res
    cases location <;> cases hbank
    rfl
  slot := fun {i res} hi hres => by
    have hbank := hf.banked.register hres
    rw [List.getElem?_eq_none hi] at hbank
    have hmem : res ∈ f.temporaries := List.mem_reverse.mp (List.mem_of_getElem? hres)
    obtain ⟨-, ⟨reg, hreg⟩ | hslot⟩ := hf.assigned res hmem
    · simp [Reservation.register?, hreg] at hbank
    · exact hslot
  live := hf.liveTempRegs_eq
  apart := hf.stacked.pairwise.imp fun hbelow distance hboth => by
    obtain ⟨⟨-, hnewer⟩, ⟨holder, -⟩⟩ := hboth
    omega
  placed := fun slot hslot => by
    obtain ⟨hsize, hle, hposition⟩ := hf.stacked.bounds slot hslot
    exact ⟨by omega, hf.aligned slot hslot, hle, hposition⟩
  position := Stacked.position_eq hf.stacked

/-- After any operations on a new frame, its parts fit together, the high-water mark is the largest
position so far, the spills count the temporaries that were reserved in slots, and no operation gives
back a slot that is not there. -/
theorem after_consistent (ops : List Op) :
    (after ops).Consistent ∧
      (∀ earlier, earlier <+: ops → (after earlier).position ≤ (after ops).highWater) ∧
      (∃ earlier, earlier <+: ops ∧ (after earlier).position = (after ops).highWater) ∧
      (after ops).spills = spilled {} ops ∧
      ∀ (op : Op) (e : CompileError), (op.step.run (after ops)).1 = .error e →
        e ≠ .internal .slotReleasedTwice ∧ e ≠ .internal .positionUnderflow := by
  have horderly := orderly_after ops
  refine ⟨horderly.consistent, fun _ => position_le_highWater, exists_highWater ops, ?_,
    fun op e he => horderly.fault (Prod.ext he rfl)⟩
  exact (foldl_spills .empty ops).trans (Nat.zero_add _)

end Frame

end ArmBackend
