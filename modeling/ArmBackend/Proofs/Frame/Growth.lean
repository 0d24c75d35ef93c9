import ArmBackend.Proofs.Frame.Valid

/-!
# Growth of frames

What the lowering of an expression may do to a frame. Only an array leaves storage behind, and only
where no temporary is live.
-/

namespace ArmBackend.Frame

/-- The frames differ in their peaks and in variables that the second has beside those of the first. -/
structure Grows (f g : Frame) : Prop where
  temporaries : g.temporaries = f.temporaries
  liveRegs : g.liveRegs = f.liveRegs
  symbols : g.symbols = f.symbols
  loops : g.loops = f.loops
  locals : f.locals <:+ g.locals
  position : f.position ≤ g.position
  highWater : f.highWater ≤ g.highWater
  valid : Valid f → Valid g
  /-- A live temporary keeps the variables as they are. -/
  rests : f.temporaries ≠ [] → Rests f g

variable {f g h : Frame}

theorem Rests.grows (hfg : Rests f g) : Grows f g where
  temporaries := hfg.temporaries
  liveRegs := hfg.liveRegs
  symbols := hfg.symbols
  loops := hfg.loops
  locals := hfg.locals ▸ List.suffix_rfl
  position := Nat.le_of_eq hfg.position.symm
  highWater := hfg.highWater
  valid := fun hf => hf.of_rests hfg
  rests := fun _ => hfg

theorem Grows.trans (hfg : Grows f g) (hgh : Grows g h) : Grows f h where
  temporaries := hgh.temporaries.trans hfg.temporaries
  liveRegs := hgh.liveRegs.trans hfg.liveRegs
  symbols := hgh.symbols.trans hfg.symbols
  loops := hgh.loops.trans hfg.loops
  locals := hfg.locals.trans hgh.locals
  position := Nat.le_trans hfg.position hgh.position
  highWater := Nat.le_trans hfg.highWater hgh.highWater
  valid := fun hf => hgh.valid (hfg.valid hf)
  rests := fun hf => (hfg.rests hf).trans (hgh.rests (hfg.temporaries ▸ hf))

theorem reserveVariable_grows {ty : Ty} {slot : Slot}
    (h : (reserveVariable ty).run f = (.ok slot, g)) : Grows f g := by
  have hvalid : Valid f → Valid g := fun hf => hf.reserveVariable h
  obtain ⟨hempty, -, rfl, rfl⟩ := reserveVariable_ok h
  exact ⟨rfl, rfl, rfl, rfl, List.suffix_cons _ _, Nat.le_add_right _ _, Nat.le_max_left _ _,
    hvalid, fun hne => absurd hempty hne⟩

structure Growth (R : Frame → Frame → Prop) : Prop where
  of_rests : ∀ {f g}, Rests f g → R f g
  trans : ∀ {f g h}, R f g → R g h → R f h
  rests : ∀ {f g}, R f g → f.temporaries ≠ [] → Rests f g

theorem growth_rests : Growth Rests := ⟨id, Rests.trans, fun h _ => h⟩

theorem growth_grows : Growth Grows := ⟨Rests.grows, Grows.trans, Grows.rests⟩

theorem reserveTemp_ne_nil {ty : Ty} {res : Reservation}
    (h : (reserveTemp ty).run f = (.ok res, g)) : g.temporaries ≠ [] := by
  obtain ⟨-, ⟨_, -, -, -, rfl⟩ | ⟨-, rfl⟩⟩ := reserveTemp_ok h <;> exact List.cons_ne_nil _ _

/-- `g` is `f` with `n` more temporaries, as far as releasing them goes. -/
def Over : Nat → Frame → Frame → Prop
  | 0, f, g => Rests f g
  | n + 1, f, g => g.temporaries ≠ [] ∧
      ∀ {g' h}, Rests g g' → releaseTemp.run g' = (.ok (), h) → Over n f h

theorem Over.of_rests {n : Nat} (hfg : Rests f g) (h' : Over n g h) : Over n f h := by
  induction n generalizing h with
  | zero => exact hfg.trans h'
  | succ n ih => exact ⟨h'.1, fun hrest hrun => ih (h'.2 hrest hrun)⟩

theorem Over.rests {n : Nat} (h' : Over n f g) (hgh : Rests g h) : Over n f h := by
  cases n with
  | zero => exact h'.trans hgh
  | succ n => exact ⟨hgh.temporaries ▸ h'.1, fun hrest hrun => h'.2 (hgh.trans hrest) hrun⟩

theorem Over.succ {n : Nat} {ty : Ty} {res : Reservation}
    (hrun : (reserveTemp ty).run f = (.ok res, g)) (h' : Over n g h) : Over (n + 1) f h := by
  induction n generalizing h with
  | zero =>
    refine ⟨?_, fun hrest hrelease => reserveTemp_releaseTemp hrun (h'.trans hrest) hrelease⟩
    exact h'.temporaries ▸ reserveTemp_ne_nil hrun
  | succ n ih => exact ⟨h'.1, fun hrest hrelease => ih (h'.2 hrest hrelease)⟩

end ArmBackend.Frame
