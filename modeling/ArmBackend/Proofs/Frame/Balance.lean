import ArmBackend.Proofs.Frame.History

/-!
# Balanced operations

Reservations and releases that match like brackets leave the frame as it was, its peaks aside. Done once
more they yield the same storage, for no operation lets the peaks decide what it does.
-/

namespace ArmBackend

theorem StepM.ok_of_map {σ α β : Type} {yield : α → β} {step : StepM σ α} {s t : σ} {b : β}
    (h : (yield <$> step).run s = (.ok b, t)) : ∃ a, step.run s = (.ok a, t) := by
  rw [run_map] at h
  rcases hrun : step.run s with ⟨e | a, u⟩ <;> rw [hrun] at h <;> cases h
  exact ⟨a, rfl⟩

theorem StepM.discard_of_map {σ α β : Type} {yield : α → β} {step : StepM σ α} {s t : σ} {b : β}
    (h : (yield <$> step).run s = (.ok b, t)) : (discard step).run s = (.ok (), t) := by
  obtain ⟨a, hrun⟩ := ok_of_map h
  rw [run_discard, hrun]
  rfl

namespace Frame

/-! ## Operations that ignore the peaks -/

/-- The frame as if it were at its peak for the first time. -/
def withoutPeaks (f : Frame) : Frame := { f with highWater := 0, spills := 0 }

section

variable (f : Frame)

@[simp] theorem withoutPeaks_locals : f.withoutPeaks.locals = f.locals := rfl

@[simp] theorem withoutPeaks_temporaries : f.withoutPeaks.temporaries = f.temporaries := rfl

@[simp] theorem withoutPeaks_liveRegs : f.withoutPeaks.liveRegs = f.liveRegs := rfl

@[simp] theorem withoutPeaks_position : f.withoutPeaks.position = f.position := rfl

@[simp] theorem withoutPeaks_paddings : f.withoutPeaks.paddings = f.paddings := rfl

end

def observe {α : Type} (operation : FrameM α) (f : Frame) : Except CompileError α × Frame :=
  ((operation.run f).1, (operation.run f).2.withoutPeaks)

/-- The peaks decide neither what the operation yields nor what else it leaves. -/
def Peakless {α : Type} (operation : FrameM α) : Prop :=
  ∀ f : Frame, observe operation f.withoutPeaks = observe operation f

theorem Rests.eq {f g : Frame} (h : Rests f g) :
    g = { f with highWater := g.highWater, spills := g.spills } := by
  rw [← h.locals, ← h.temporaries, ← h.liveRegs, ← h.symbols, ← h.position, ← h.paddings, ← h.loops]

theorem Rests.withoutPeaks_eq {f g : Frame} (h : Rests f g) : g.withoutPeaks = f.withoutPeaks := by
  simp only [withoutPeaks, h.locals, h.temporaries, h.liveRegs, h.symbols, h.position, h.paddings,
    h.loops]

namespace Peakless

variable {α β : Type} {operation : FrameM α}

theorem observe_eq (h : Peakless operation) {f g : Frame} (hfg : g.withoutPeaks = f.withoutPeaks) :
    observe operation g = observe operation f := by
  rw [← h g, hfg, h f]

theorem pure (a : α) : Peakless (pure a : FrameM α) := fun _ => rfl

theorem throw (e : CompileError) : Peakless (throw e : FrameM α) := fun _ => rfl

theorem modify {change : Frame → Frame}
    (h : ∀ f, (change f.withoutPeaks).withoutPeaks = (change f).withoutPeaks) :
    Peakless (modify change : FrameM Unit) := fun f => by
  simp only [observe, StepM.run_modify, h]

theorem bind {next : α → FrameM β} (h : Peakless operation) (hnext : ∀ a, Peakless (next a)) :
    Peakless (operation >>= next) := fun f => by
  have hobserve := h f
  simp only [observe, StepM.run_bind] at hobserve ⊢
  rcases hrun : operation.run f with ⟨e | a, g⟩ <;>
    rcases hrun' : operation.run f.withoutPeaks with ⟨e' | a', g'⟩ <;>
    rw [hrun, hrun'] at hobserve <;> obtain ⟨hresult, hframe⟩ := Prod.mk.inj hobserve <;>
    cases hresult
  · exact congrArg _ hframe
  · exact (hnext a).observe_eq hframe

theorem map (yield : α → β) (h : Peakless operation) : Peakless (yield <$> operation) := by
  rw [map_eq_pure_bind]
  exact h.bind fun _ => .pure _

theorem takeSlot (ty : Ty) : Peakless (takeSlot ty) := fun f => by
  simp only [observe, takeSlot_run]
  split <;> rfl

theorem dropSlot (ty : Ty) : Peakless (dropSlot ty) := fun f => by
  simp only [observe, dropSlot_run, withoutPeaks_paddings, withoutPeaks_position]
  cases f.paddings with
  | nil => rfl
  | cons padding paddings =>
    by_cases hshort : f.position < padding + ty.size <;> simp only [hshort, if_true, if_false] <;> rfl

theorem requireNoTemporaries (action : VariableAction) : Peakless (requireNoTemporaries action) :=
  fun f => by
    simp only [observe, Frame.requireNoTemporaries, StepM.run_bind, StepM.run_get, StepM.run_ite,
      StepM.run_pure, StepM.run_throw, withoutPeaks_temporaries]
    by_cases hquiet : f.temporaries.isEmpty = true <;> simp only [hquiet, if_true] <;> rfl

theorem reserveVariable (ty : Ty) : Peakless (reserveVariable ty) :=
  .bind (requireNoTemporaries .reserve) fun _ => .bind (takeSlot ty) fun _ =>
    .bind (.modify fun _ => rfl) fun _ => .pure _

theorem addVariable (ty : Ty) (name : String) : Peakless (addVariable ty name) :=
  .bind (reserveVariable ty) fun _ => .bind (.modify fun _ => rfl) fun _ => .pure _

theorem releaseVariable : Peakless releaseVariable :=
  .bind (requireNoTemporaries .release) fun _ f => by
    simp only [observe, StepM.run_bind, StepM.run_get, withoutPeaks_locals]
    cases f.locals with
    | nil => rfl
    | cons slot locals => exact dropSlot slot.ty { f with locals }

theorem reserveTemp (ty : Ty) : Peakless (reserveTemp ty) := by
  rw [Frame.reserveTemp]
  split
  · intro f
    simp only [observe, StepM.run_bind, StepM.run_get, withoutPeaks_liveRegs]
    cases f.liveRegs.firstFree? Register.tempBank with
    | some reg => rfl
    | none =>
      exact Peakless.bind (takeSlot ty) (fun _ => .bind (.modify fun _ => rfl) fun _ => .pure _) f
  · exact .throw _

theorem releaseTemp : Peakless releaseTemp := fun f => by
  simp only [observe, Frame.releaseTemp, StepM.run_bind, StepM.run_get, withoutPeaks_temporaries]
  cases f.temporaries with
  | nil => rfl
  | cons res temporaries =>
    simp only [StepM.run_bind, StepM.run_set]
    cases res.register? with
    | some reg => rfl
    | none => exact dropSlot res.ty { f with temporaries }

end Peakless

/-! ## Entries -/

structure Entry where
  reservation? : Option Reservation
  position : Nat
deriving DecidableEq

def Op.reservation? : Op → FrameM (Option Reservation)
  | .addVariable ty name => (some ·.reservation) <$> Frame.addVariable ty name
  | .reserveVariable ty => (some ·.reservation) <$> Frame.reserveVariable ty
  | .releaseVariable => (fun _ => none) <$> Frame.releaseVariable
  | .reserveTemp ty => some <$> Frame.reserveTemp ty
  | .releaseTemp => (fun _ => none) <$> Frame.releaseTemp
  | .pushLoop id => (fun _ => none) <$> (modify (Frame.pushLoop id) : FrameM Unit)
  | .popLoop => (fun _ => none) <$> (modify Frame.popLoop : FrameM Unit)

def Op.entry (op : Op) : FrameM Entry := do
  let reservation? ← op.reservation?
  return ⟨reservation?, (← get).position⟩

def perform (ops : List Op) : FrameM (List Entry) := ops.mapM Op.entry

theorem Op.reservation?_peakless (op : Op) : Peakless op.reservation? := by
  cases op with
  | addVariable ty name => exact .map _ (.addVariable ty name)
  | reserveVariable ty => exact .map _ (.reserveVariable ty)
  | releaseVariable => exact .map _ .releaseVariable
  | reserveTemp ty => exact .map _ (.reserveTemp ty)
  | releaseTemp => exact .map _ .releaseTemp
  | pushLoop id => exact .map _ (.modify fun _ => rfl)
  | popLoop => exact .map _ (.modify fun _ => rfl)

theorem perform_peakless (ops : List Op) : Peakless (perform ops) := by
  induction ops with
  | nil => exact .pure []
  | cons op ops ih =>
    rw [perform, List.mapM_cons]
    exact .bind (.bind op.reservation?_peakless fun _ _ => rfl) fun _ => .bind ih fun _ => .pure _

variable {f g : Frame} {op : Op} {ops : List Op} {entry : Entry} {entries : List Entry}

theorem Op.reservation?_ok {reservation? : Option Reservation}
    (h : op.reservation?.run f = (.ok reservation?, g)) : op.step.run f = (.ok (), g) := by
  cases op with
  | addVariable ty name => exact StepM.discard_of_map h
  | reserveVariable ty => exact StepM.discard_of_map h
  | reserveTemp ty => exact StepM.discard_of_map h
  | releaseVariable => exact (StepM.ok_of_map h).choose_spec
  | releaseTemp => exact (StepM.ok_of_map h).choose_spec
  | pushLoop id => exact (StepM.ok_of_map h).choose_spec
  | popLoop => exact (StepM.ok_of_map h).choose_spec

theorem Op.entry_ok (h : op.entry.run f = (.ok entry, g)) :
    op.step.run f = (.ok (), g) ∧ entry.position = g.position := by
  obtain ⟨reservation?, f', hrun, hentry⟩ := StepM.run_bind_eq_ok.mp h
  cases hentry
  exact ⟨Op.reservation?_ok hrun, rfl⟩

theorem perform_cons_ok (h : (perform (op :: ops)).run f = (.ok entries, g)) :
    ∃ entry rest f', entries = entry :: rest ∧ op.entry.run f = (.ok entry, f') ∧
      (perform ops).run f' = (.ok rest, g) := by
  rw [perform, List.mapM_cons] at h
  obtain ⟨entry, f', hentry, h'⟩ := StepM.run_bind_eq_ok.mp h
  obtain ⟨rest, g', hrest, h''⟩ := StepM.run_bind_eq_ok.mp h'
  cases h''
  exact ⟨entry, rest, f', rfl, hentry, hrest⟩

theorem perform_append_ok {before after : List Op}
    (h : (perform (before ++ after)).run f = (.ok entries, g)) :
    ∃ earlier later f', entries = earlier ++ later ∧ (perform before).run f = (.ok earlier, f') ∧
      (perform after).run f' = (.ok later, g) := by
  rw [perform, List.mapM_append] at h
  obtain ⟨earlier, f', hearlier, h'⟩ := StepM.run_bind_eq_ok.mp h
  obtain ⟨later, g', hlater, h''⟩ := StepM.run_bind_eq_ok.mp h'
  cases h''
  exact ⟨earlier, later, f', rfl, hearlier, hlater⟩

theorem perform_between_ok {first last : Op} {inner rest : List Op}
    (h : (perform (first :: (inner ++ last :: rest))).run f = (.ok entries, g)) :
    ∃ within later f₁ f₂ f₃, first.step.run f = (.ok (), f₁) ∧
      (perform inner).run f₁ = (.ok within, f₂) ∧ last.step.run f₂ = (.ok (), f₃) ∧
      (perform rest).run f₃ = (.ok later, g) := by
  obtain ⟨_, _, f₁, -, hfirst, h₁⟩ := perform_cons_ok h
  obtain ⟨within, _, f₂, -, hwithin, h₂⟩ := perform_append_ok h₁
  obtain ⟨_, later, f₃, -, hlast, hlater⟩ := perform_cons_ok h₂
  exact ⟨within, later, f₁, f₂, f₃, (Op.entry_ok hfirst).1, hwithin, (Op.entry_ok hlast).1, hlater⟩

theorem Valid.perform_peaks (hf : f.Valid) (h : (perform ops).run f = (.ok entries, g)) :
    g.highWater = (entries.map Entry.position).foldl max f.highWater ∧
      g.spills = f.spills + spilled f ops := by
  induction ops generalizing f entries with
  | nil =>
    cases h
    exact ⟨rfl, rfl⟩
  | cons op ops ih =>
    obtain ⟨entry, rest, f', rfl, hentry, hrest⟩ := perform_cons_ok h
    obtain ⟨hstep, hposition⟩ := Op.entry_ok hentry
    obtain rfl : op.apply f = f' := by rw [← Op.step_run, hstep]
    obtain ⟨hhigh, hspills⟩ := ih (hf.apply op) hrest
    have heffect := hf.effect op
    refine ⟨?_, ?_⟩
    · rw [hhigh, heffect.highWater hf, List.map_cons, List.foldl_cons, hposition]
    · rw [hspills, heffect.spills, spilled, Op.step_run, Nat.add_assoc]

/-! ## Balance -/

/-- Operations that match like brackets: each release stands for the newest reservation that is not yet
released, and is of its kind. -/
inductive Balanced : List Op → Prop
  | nil : Balanced []
  | declaration {inner rest : List Op} (ty : Ty) (inside : Balanced inner) (after : Balanced rest) :
      Balanced (.reserveVariable ty :: (inner ++ .releaseVariable :: rest))
  | temporary {inner rest : List Op} (ty : Ty) (inside : Balanced inner) (after : Balanced rest) :
      Balanced (.reserveTemp ty :: (inner ++ .releaseTemp :: rest))

theorem Balanced.temporaries (ty : Ty) (n : Nat) :
    Balanced (List.replicate n (.reserveTemp ty) ++ List.replicate n .releaseTemp) := by
  induction n with
  | zero => exact .nil
  | succ n ih =>
    rw [List.replicate_succ, List.replicate_succ', List.cons_append, ← List.append_assoc]
    exact .temporary ty ih .nil

theorem reserveVariable_releaseVariable {ty : Ty} {slot : Slot} {f f' g g' : Frame}
    (hreserve : (reserveVariable ty).run f = (.ok slot, f')) (hrest : Rests f' g)
    (hrelease : releaseVariable.run g = (.ok (), g')) : Rests f g' := by
  obtain ⟨-, slot', padding, locals, paddings, hlocals, hpaddings, rfl⟩ :=
    releaseVariable_ok hrelease
  obtain ⟨-, -, rfl, rfl⟩ := reserveVariable_ok hreserve
  obtain ⟨rfl, rfl⟩ := List.cons.inj (hrest.locals ▸ hlocals)
  obtain ⟨rfl, rfl⟩ := List.cons.inj (hrest.paddings ▸ hpaddings)
  refine ⟨rfl, hrest.temporaries, hrest.liveRegs, hrest.symbols, ?_, rfl, hrest.loops,
    Nat.le_trans (Nat.le_max_left _ _) hrest.highWater⟩
  simp only [hrest.position, withSlot, slotSize]
  omega

/-- Whatever stands between the brackets, the frame comes back to what it was. -/
theorem Balanced.rests (hbalanced : Balanced ops) (h : (perform ops).run f = (.ok entries, g)) :
    Rests f g := by
  induction hbalanced generalizing f g entries with
  | nil =>
    cases h
    exact .refl f
  | declaration ty inside after ihInside ihAfter =>
    obtain ⟨_, _, f₁, f₂, f₃, hreserve, hinside, hrelease, hafter⟩ := perform_between_ok h
    obtain ⟨slot, hslot⟩ := StepM.ok_of_discard hreserve
    have hrests := reserveVariable_releaseVariable hslot (ihInside hinside) hrelease
    exact hrests.trans (ihAfter hafter)
  | temporary ty inside after ihInside ihAfter =>
    obtain ⟨_, _, f₁, f₂, f₃, hreserve, hinside, hrelease, hafter⟩ := perform_between_ok h
    obtain ⟨res, hres⟩ := StepM.ok_of_discard hreserve
    have hrests := reserveTemp_releaseTemp hres (ihInside hinside) hrelease
    exact hrests.trans (ihAfter hafter)

/-- After any operations on a new frame, balanced ones that succeed change nothing but the peaks: the
high-water mark becomes the largest of its old value and the positions on the way, and the spills grow by
the temporaries that were reserved in slots. The same operations then yield the same storage, at the same
positions, once more. -/
theorem balanced_restores (history : List Op) {ops : List Op} (hbalanced : Balanced ops)
    {entries : List Entry} {g : Frame}
    (hrun : (perform ops).run (after history) = (.ok entries, g)) :
    g = { after history with
        highWater := (entries.map Entry.position).foldl max (after history).highWater
        spills := (after history).spills + spilled (after history) ops } ∧
      ((perform ops).run g).1 = .ok entries := by
  have hrests := hbalanced.rests hrun
  obtain ⟨hhigh, hspills⟩ := (orderly_after history).toValid.perform_peaks hrun
  refine ⟨?_, ?_⟩
  · rw [← hhigh, ← hspills]
    exact hrests.eq
  · have hobserve := (perform_peakless ops).observe_eq hrests.withoutPeaks_eq
    have houtcome := congrArg Prod.fst hobserve
    simp only [observe, hrun] at houtcome
    exact houtcome

/-- Two variables with padding between them, and more temporaries than there are registers. -/
theorem balanced_restores_padded :
    let history : List Op := [.addVariable .char "c"]
    let ops : List Op := .reserveVariable .char :: ((.reserveVariable .int ::
      ((List.replicate 9 (.reserveTemp .char) ++ List.replicate 9 .releaseTemp) ++
        .releaseVariable :: [])) ++ .releaseVariable :: [])
    ∃ entries, Balanced ops ∧
      (perform ops).run (after history) =
        (.ok entries, { after history with highWater := 17, spills := 1 }) ∧
      ((perform ops).run { after history with highWater := 17, spills := 1 }).1 = .ok entries := by
  intro history ops
  have hbalanced : Balanced ops := .declaration _ (.declaration _ (.temporaries .char 9) .nil) .nil
  obtain ⟨entries, g, hrun, htest⟩ := StepM.exists_of_any ((perform ops).run (after history))
    (fun entries _ => decide ((entries.map Entry.position).foldl max (after history).highWater = 17 ∧
      (after history).spills + spilled (after history) ops = 1)) (by decide +kernel)
  obtain ⟨hhigh, hspills⟩ := of_decide_eq_true htest
  obtain ⟨hg, hagain⟩ := balanced_restores history hbalanced hrun
  rw [hhigh, hspills] at hg
  exact ⟨entries, hbalanced, hg ▸ hrun, hg ▸ hagain⟩

end Frame

end ArmBackend
