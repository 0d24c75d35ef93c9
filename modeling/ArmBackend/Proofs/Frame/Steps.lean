import ArmBackend.Frame

/-!
# Steps of a frame

What taking and giving back storage does to a frame. A temporary that is released leaves the frame as
it was before the temporary was reserved, the peaks aside.
-/

namespace ArmBackend

namespace RegSet

theorem erase_insert {set : RegSet} {reg : Register} (h : set.contains reg = false) :
    (set.insert reg).erase reg = set := by
  obtain ⟨mask⟩ := set
  simp only [contains] at h
  simp only [insert, erase, RegSet.mk.injEq]
  apply BitVec.eq_of_getLsbD_eq
  intro i hi
  simp only [BitVec.getLsbD_and, BitVec.getLsbD_or, BitVec.getLsbD_not, getLsbD_bit, hi]
  by_cases hr : reg.number = i
  · subst hr
    simp [h]
  · simp [hr]

theorem firstFree?_eq_some {set : RegSet} {bank : List Register} {reg : Register}
    (h : set.firstFree? bank = some reg) : reg ∈ bank ∧ set.contains reg = false := by
  refine ⟨List.mem_of_find?_eq_some h, ?_⟩
  simpa using List.find?_some h

end RegSet

namespace Frame

/-! ## Peaks -/

/-- The frames differ in their peaks at most, and those only grow. -/
structure Rests (f g : Frame) : Prop where
  locals : g.locals = f.locals
  temporaries : g.temporaries = f.temporaries
  liveRegs : g.liveRegs = f.liveRegs
  symbols : g.symbols = f.symbols
  position : g.position = f.position
  paddings : g.paddings = f.paddings
  loops : g.loops = f.loops
  highWater : f.highWater ≤ g.highWater

namespace Rests

theorem refl (f : Frame) : Rests f f := ⟨rfl, rfl, rfl, rfl, rfl, rfl, rfl, Nat.le_refl _⟩

theorem trans {f g h : Frame} (hfg : Rests f g) (hgh : Rests g h) : Rests f h where
  locals := hgh.locals.trans hfg.locals
  temporaries := hgh.temporaries.trans hfg.temporaries
  liveRegs := hgh.liveRegs.trans hfg.liveRegs
  symbols := hgh.symbols.trans hfg.symbols
  position := hgh.position.trans hfg.position
  paddings := hgh.paddings.trans hfg.paddings
  loops := hgh.loops.trans hfg.loops
  highWater := Nat.le_trans hfg.highWater hgh.highWater

end Rests

/-! ## Slots -/

variable {f g : Frame} {ty : Ty}

/-- The padding and the bytes of a slot for a value of type `ty`. -/
def slotSize (f : Frame) (ty : Ty) : Nat := paddingTo ty.size f.position + ty.size

def withSlot (f : Frame) (ty : Ty) : Frame :=
  { f with
    position := f.position + f.slotSize ty
    highWater := max f.highWater (f.position + f.slotSize ty)
    paddings := paddingTo ty.size f.position :: f.paddings }

theorem takeSlot_ok {offset : Nat} (h : (takeSlot ty).run f = (.ok offset, g)) :
    0 < ty.size ∧ offset = f.position + f.slotSize ty ∧ g = f.withSlot ty := by
  rw [takeSlot_run] at h
  split at h
  · cases h
  · cases h
    exact ⟨by omega, rfl, rfl⟩

theorem dropSlot_ok (h : (dropSlot ty).run f = (.ok (), g)) :
    ∃ padding paddings, f.paddings = padding :: paddings ∧
      g = { f with paddings, position := f.position - (padding + ty.size) } := by
  rw [dropSlot_run] at h
  split at h
  · cases h
  · split at h <;> cases h
    exact ⟨_, _, ‹_›, rfl⟩

/-! ## Variables -/

theorem requireNoTemporaries_ok {action : VariableAction}
    (h : (requireNoTemporaries action).run f = (.ok (), g)) : f.temporaries = [] ∧ g = f := by
  simp only [requireNoTemporaries, StepM.run_bind, StepM.run_get, StepM.run_ite, StepM.run_pure,
    StepM.run_throw, List.isEmpty_iff] at h
  split at h <;> cases h
  exact ⟨‹_›, rfl⟩

theorem reserveVariable_ok {slot : Slot} (h : (reserveVariable ty).run f = (.ok slot, g)) :
    f.temporaries = [] ∧ 0 < ty.size ∧ slot = ⟨f.position + f.slotSize ty, ty⟩ ∧
      g = { f.withSlot ty with locals := slot :: f.locals } := by
  obtain ⟨_, f₁, hrequire, h₁⟩ := StepM.run_bind_eq_ok.mp h
  obtain ⟨hempty, rfl⟩ := requireNoTemporaries_ok hrequire
  obtain ⟨offset, f₂, htake, h₂⟩ := StepM.run_bind_eq_ok.mp h₁
  obtain ⟨hsize, rfl, rfl⟩ := takeSlot_ok htake
  cases h₂
  exact ⟨hempty, hsize, rfl, rfl⟩

theorem addVariable_ok {name : String} {slot : Slot}
    (h : (addVariable ty name).run f = (.ok slot, g)) :
    f.temporaries = [] ∧ 0 < ty.size ∧ slot = ⟨f.position + f.slotSize ty, ty⟩ ∧
      g = { f.withSlot ty with locals := slot :: f.locals, symbols := (name, slot) :: f.symbols } := by
  obtain ⟨slot', f₁, hreserve, h₁⟩ := StepM.run_bind_eq_ok.mp h
  obtain ⟨hempty, hsize, rfl, rfl⟩ := reserveVariable_ok hreserve
  cases h₁
  exact ⟨hempty, hsize, rfl, rfl⟩

theorem releaseVariable_ok (h : releaseVariable.run f = (.ok (), g)) :
    f.temporaries = [] ∧ ∃ slot padding, ∃ locals paddings, f.locals = slot :: locals ∧
      f.paddings = padding :: paddings ∧
      g = { f with locals, paddings, position := f.position - (padding + slot.ty.size) } := by
  obtain ⟨_, f₁, hrequire, h₁⟩ := StepM.run_bind_eq_ok.mp h
  obtain ⟨hempty, rfl⟩ := requireNoTemporaries_ok hrequire
  refine ⟨hempty, ?_⟩
  obtain ⟨_, f₂, hget, h₂⟩ := StepM.run_bind_eq_ok.mp h₁
  cases hget
  split at h₂
  · cases h₂
  · obtain ⟨_, f₃, hset, h₃⟩ := StepM.run_bind_eq_ok.mp h₂
    cases hset
    obtain ⟨padding, paddings, hpaddings, rfl⟩ := dropSlot_ok h₃
    exact ⟨_, padding, _, paddings, ‹_›, hpaddings, rfl⟩

theorem resolve_ok {name : String} {slot : Slot} (h : (resolve name).run f = (.ok slot, g)) :
    f.symbols.lookup name = some slot ∧ g = f := by
  simp only [resolve, StepM.run_bind, StepM.run_get] at h
  split at h <;> cases h
  exact ⟨‹_›, rfl⟩

theorem mem_symbols {f : Frame} {name : String} {slot : Slot}
    (hlookup : f.symbols.lookup name = some slot) : (name, slot) ∈ f.symbols := by
  obtain ⟨before, after, hsymbols, -⟩ := List.lookup_eq_some_iff.mp hlookup
  rw [hsymbols]
  exact List.mem_append_right _ List.mem_cons_self

/-! ## Temporaries -/

theorem reserveTemp_ok {res : Reservation} (h : (reserveTemp ty).run f = (.ok res, g)) :
    0 < ty.size ∧
      ((∃ reg ∈ Register.tempBank, f.liveRegs.contains reg = false ∧ res = .ofReg ty reg ∧
          g = { f with liveRegs := f.liveRegs.insert reg, temporaries := res :: f.temporaries }) ∨
        (res = Slot.reservation ⟨f.position + f.slotSize ty, ty⟩ ∧
          g = { f.withSlot ty with
            spills := f.spills + 1, temporaries := res :: f.temporaries })) := by
  have hsize : 0 < ty.size := by
    refine Nat.pos_of_ne_zero fun hzero => ?_
    have hstorable : ty.storable = false := by simpa [Ty.storable] using hzero
    simp only [reserveTemp, hstorable] at h
    cases h
  have hstorable : ty.storable = true := by simpa [Ty.storable] using hsize
  refine ⟨hsize, ?_⟩
  simp only [reserveTemp, hstorable, StepM.run_bind, StepM.run_get, if_true] at h
  cases hfree : f.liveRegs.firstFree? Register.tempBank with
  | some reg =>
    obtain ⟨hbank, hlive⟩ := RegSet.firstFree?_eq_some hfree
    simp only [hfree] at h
    cases h
    exact Or.inl ⟨reg, hbank, hlive, rfl, rfl⟩
  | none =>
    simp only [hfree] at h
    obtain ⟨offset, f₁, htake, h₁⟩ := StepM.run_bind_eq_ok.mp h
    obtain ⟨-, rfl, rfl⟩ := takeSlot_ok htake
    cases h₁
    exact Or.inr ⟨rfl, rfl⟩

theorem releaseTemp_ok (h : releaseTemp.run f = (.ok (), g)) :
    ∃ res temporaries, f.temporaries = res :: temporaries ∧
      ((∃ reg, res.location = .reg reg ∧
          g = { f with temporaries, liveRegs := f.liveRegs.erase reg }) ∨
        (∃ padding paddings, f.paddings = padding :: paddings ∧ (∀ reg, res.location ≠ .reg reg) ∧
          g = { f with
            temporaries, paddings, position := f.position - (padding + res.ty.size) })) := by
  obtain ⟨_, f₁, hget, h₁⟩ := StepM.run_bind_eq_ok.mp h
  cases hget
  split at h₁
  · cases h₁
  case h_2 res temporaries htemps =>
    refine ⟨res, temporaries, htemps, ?_⟩
    obtain ⟨_, f₂, hset, h₂⟩ := StepM.run_bind_eq_ok.mp h₁
    cases hset
    obtain ⟨location, ty⟩ := res
    cases location with
    | reg reg =>
      cases h₂
      exact Or.inl ⟨reg, rfl, rfl⟩
    | slot offset =>
      obtain ⟨padding, paddings, hpaddings, rfl⟩ := dropSlot_ok h₂
      exact Or.inr ⟨padding, paddings, hpaddings, nofun, rfl⟩
    | unassigned =>
      obtain ⟨padding, paddings, hpaddings, rfl⟩ := dropSlot_ok h₂
      exact Or.inr ⟨padding, paddings, hpaddings, nofun, rfl⟩

/-- Releasing a temporary undoes its reservation, whatever came and went in between. -/
theorem reserveTemp_releaseTemp {res : Reservation} {f' g' : Frame}
    (hreserve : (reserveTemp ty).run f = (.ok res, f')) (hrest : Rests f' g)
    (hrelease : releaseTemp.run g = (.ok (), g')) : Rests f g' := by
  obtain ⟨res', temporaries, htemps, hg'⟩ := releaseTemp_ok hrelease
  rw [hrest.temporaries] at htemps
  obtain ⟨-, ⟨reg, -, hfree, hres, hf'⟩ | ⟨hres, hf'⟩⟩ := reserveTemp_ok hreserve
  · subst hf'
    cases htemps
    rcases hg' with ⟨reg', hreg, rfl⟩ | ⟨_, _, _, hne, -⟩
    · subst hres
      cases hreg
      refine ⟨hrest.locals, rfl, ?_, hrest.symbols, hrest.position, hrest.paddings, hrest.loops,
        hrest.highWater⟩
      simp only [hrest.liveRegs, RegSet.erase_insert hfree]
    · exact absurd (hres ▸ rfl) (hne reg)
  · subst hf'
    cases htemps
    rcases hg' with ⟨reg', hreg, -⟩ | ⟨padding, paddings, hpaddings, -, rfl⟩
    · subst hres
      cases hreg
    · rw [hrest.paddings] at hpaddings
      cases hpaddings
      refine ⟨hrest.locals, rfl, hrest.liveRegs, hrest.symbols, ?_, rfl, hrest.loops,
        Nat.le_trans (Nat.le_max_left _ _) hrest.highWater⟩
      simp only [hrest.position, hres, withSlot, slotSize, Slot.reservation]
      omega

theorem releaseTemp_highWater {f g : Frame} (h : releaseTemp.run f = (.ok (), g)) :
    f.highWater ≤ g.highWater := by
  obtain ⟨res, temporaries, -, ⟨reg, -, rfl⟩ | ⟨padding, paddings, -, -, rfl⟩⟩ := releaseTemp_ok h <;>
    exact Nat.le_refl _

theorem reserveTemp_highWater {f g : Frame} {ty : Ty} {res : Reservation}
    (h : (reserveTemp ty).run f = (.ok res, g)) :
    f.highWater ≤ g.highWater ∧ g.position ≤ max f.position g.highWater := by
  obtain ⟨-, ⟨reg, -, -, -, rfl⟩ | ⟨-, rfl⟩⟩ := reserveTemp_ok h
  · exact ⟨Nat.le_refl _, Nat.le_max_left _ _⟩
  · simp only [withSlot]
    omega

end Frame

end ArmBackend
