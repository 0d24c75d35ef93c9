import ArmBackend.Proofs.Expr.Eval
import ArmBackend.Proofs.Expr.Progress
import ArmBackend.Proofs.Machine.Saves

/-!
# Where values land

What the code of an expression may change, and what it relies on: the variables, and the memory that it
does not use itself.
-/

namespace ArmBackend

def Scratch (fp : Word) (low high : Nat) (a : Word) : Prop :=
  low < below fp a ∧ below fp a ≤ high

theorem Scratch.mono {fp a : Word} {low low' high high' : Nat} (h : Scratch fp low high a)
    (hlow : low' ≤ low) (hhigh : high ≤ high') : Scratch fp low' high' a :=
  ⟨Nat.lt_of_le_of_lt hlow h.1, Nat.le_trans h.2 hhigh⟩

/-! ## Slots -/

namespace Slot

theorem eval_offset (slot : Slot) : BitVec.ofInt 64 slot.offset = BitVec.ofNat 64 slot.offset :=
  BitVec.ofInt_natCast 64 slot.offset

theorem covers_iff {slot : Slot} {fp a : Word} (hsize : 0 < slot.ty.size)
    (hle : slot.ty.size ≤ slot.offset) (hlt : slot.offset < 2 ^ 64) :
    slot.reservation.Covers fp a ↔
      slot.offset - slot.ty.size < below fp a ∧ below fp a ≤ slot.offset := by
  have hbytes := Ty.width_bytes hsize
  rw [← hbytes] at hle ⊢
  rw [← ArmBackend.covers_iff hle hlt, ← eval_offset]
  rfl

end Slot

/-! ## Targets -/

namespace Register

/-- Registers that hold neither values of temporaries nor results. -/
def reserved : List Register := [.framePointer, .stackPointer, .linkRegister, .operand]

theorem mem_tempBank {reg : Register} :
    reg ∈ tempBank ↔ reg = .indirectResult ∨ ∃ index, reg = .temp index := by
  simp only [tempBank, List.mem_cons, List.mem_map, List.mem_finRange, true_and, eq_comm]

theorem mem_argBank {reg : Register} : reg ∈ argBank ↔ ∃ index, reg = .arg index := by
  simp only [argBank, List.mem_map, List.mem_finRange, true_and, eq_comm]

end Register

namespace Reservation

def Fits (target : Reservation) (f : Frame) : Prop :=
  match target.location with
  | .reg reg =>
    reg ∉ Register.reserved ∧ (reg ∈ Register.tempBank → f.liveRegs.contains reg = true)
  | .slot offset =>
    ∃ n : Nat, offset = n ∧ 0 < target.ty.size ∧ target.ty.size ≤ n ∧ n ≤ f.position
  | .unassigned => False

theorem Fits.receives {target : Reservation} {f : Frame} (h : target.Fits f) :
    target.Receives := by
  obtain ⟨location, ty⟩ := target
  cases location with
  | reg reg =>
    have hreserved : reg ∉ Register.reserved := h.1
    refine ⟨fun hr => hreserved ?_, fun hr => hreserved ?_⟩ <;> cases hr <;> decide
  | slot offset => exact ⟨nofun, nofun⟩
  | unassigned => exact h.elim

theorem Fits.exists_slot {target : Reservation} {f : Frame} (h : target.Fits f) {offset : Int}
    (hloc : target.location = .slot offset) :
    ∃ slot : Slot, target = slot.reservation ∧ 0 < slot.ty.size ∧ slot.ty.size ≤ slot.offset ∧
      slot.offset ≤ f.position := by
  obtain ⟨location, ty⟩ := target
  cases hloc
  obtain ⟨n, rfl, hsize, hle, hposition⟩ := h
  exact ⟨⟨n, ty⟩, rfl, hsize, hle, hposition⟩

end Reservation

namespace Frame

def Clobbers (f : Frame) (calls : Bool) (reg : Register) : Prop :=
  reg = .staging ∨ reg = .operand ∨
    (reg ∈ Register.tempBank ∧ f.liveRegs.contains reg = false) ∨
    (calls = true ∧ (reg ∈ Register.argBank ∨ reg = .linkRegister))

theorem Clobbers.mono {f : Frame} {calls calls' : Bool} {reg : Register}
    (h : f.Clobbers calls reg) (hcalls : calls = true → calls' = true) : f.Clobbers calls' reg :=
  h.imp_right fun h => h.imp_right fun h => h.imp_right fun h => ⟨hcalls h.1, h.2⟩

theorem not_clobbers_framePointer (f : Frame) (calls : Bool) :
    ¬ f.Clobbers calls .framePointer := by
  rintro (h | h | ⟨h, -⟩ | ⟨-, h | h⟩)
  · cases h
  · cases h
  · simp [Register.mem_tempBank] at h
  · simp [Register.mem_argBank] at h
  · cases h

theorem not_clobbers_stackPointer (f : Frame) (calls : Bool) :
    ¬ f.Clobbers calls .stackPointer := by
  rintro (h | h | ⟨h, -⟩ | ⟨-, h | h⟩)
  · cases h
  · cases h
  · simp [Register.mem_tempBank] at h
  · simp [Register.mem_argBank] at h
  · cases h

theorem not_clobbers_calleeSaved (f : Frame) (calls : Bool) (index : Fin 10) :
    ¬ f.Clobbers calls (.calleeSaved index) := by
  rintro (h | h | ⟨h, -⟩ | ⟨-, h | h⟩)
  · cases h
  · cases h
  · simp [Register.mem_tempBank] at h
  · simp [Register.mem_argBank] at h
  · cases h

theorem not_clobbers_linkRegister (f : Frame) : ¬ f.Clobbers false .linkRegister := by
  rintro (h | h | ⟨h, -⟩ | ⟨h, -⟩)
  · cases h
  · cases h
  · simp [Register.mem_tempBank] at h
  · cases h

theorem not_clobbers_live {f : Frame} {calls : Bool} {reg : Register}
    (hbank : reg ∈ Register.tempBank) (hlive : f.liveRegs.contains reg = true) :
    ¬ f.Clobbers calls reg := by
  rintro (h | h | ⟨-, h⟩ | ⟨-, h | h⟩)
  · subst h
    simp [Register.mem_tempBank, Register.staging] at hbank
  · subst h
    simp [Register.mem_tempBank, Register.operand] at hbank
  · rw [hlive] at h
    cases h
  · obtain ⟨index, rfl⟩ := Register.mem_argBank.mp h
    simp [Register.mem_tempBank] at hbank
  · subst h
    simp [Register.mem_tempBank] at hbank

end Frame

structure Frame.Within (f g : Frame) : Prop where
  symbols : g.symbols = f.symbols
  position : f.position ≤ g.position
  live : ∀ reg, f.liveRegs.contains reg = true → g.liveRegs.contains reg = true

theorem Frame.Within.trans {f g h : Frame} (hfg : Within f g) (hgh : Within g h) : Within f h :=
  ⟨hgh.symbols.trans hfg.symbols, Nat.le_trans hfg.position hgh.position,
    fun reg hreg => hgh.live reg (hfg.live reg hreg)⟩

theorem Frame.Rests.within {f g : Frame} (h : Rests f g) : Within f g :=
  ⟨h.symbols, Nat.le_of_eq h.position.symm, fun _ hreg => h.liveRegs ▸ hreg⟩

theorem Frame.Grows.within {f g : Frame} (h : Grows f g) : Within f g :=
  ⟨h.symbols, h.position, fun _ hreg => h.liveRegs ▸ hreg⟩

theorem Frame.Within.clobbers {f g : Frame} (hfg : Within f g) {calls : Bool} {reg : Register}
    (h : g.Clobbers calls reg) : f.Clobbers calls reg := by
  refine h.imp_right fun h => h.imp_right fun h => h.imp_left fun ⟨hbank, hfree⟩ => ⟨hbank, ?_⟩
  by_contra hne
  rw [hfg.live reg (by simpa using hne)] at hfree
  cases hfree

theorem Reservation.Fits.within {f g : Frame} {target : Reservation} (h : target.Fits f)
    (hfg : f.Within g) : target.Fits g := by
  obtain ⟨location, ty⟩ := target
  cases location with
  | reg reg => exact ⟨h.1, fun hbank => hfg.live reg (h.2 hbank)⟩
  | slot offset =>
    obtain ⟨n, hn, hsize, hle, hposition⟩ := h
    exact ⟨n, hn, hsize, hle, Nat.le_trans hposition hfg.position⟩
  | unassigned => exact h

theorem Frame.Within.refl (f : Frame) : Within f f := (Rests.refl f).within

/-- The outcome of the code of an expression: the target holds what it keeps of `v`. Beside it only
registers that are free and bytes between the frame's position and `bound` may have changed. -/
structure Lands (f : Frame) (calls : Bool) (bound : Nat) (target : Reservation) (v : Word)
    (s t : State) : Prop where
  read : t.read target = target.keep v
  only : ChangesOnly (fun reg => target.location = .reg reg ∨ f.Clobbers calls reg)
    (fun a => target.Covers (s.regs .framePointer) a ∨
      Scratch (s.regs .framePointer) f.position bound a) s t

theorem Code.Put.lands {target : Reservation} {v : Word} {s t : State} (h : Put target v s t)
    (f : Frame) (calls : Bool) (bound : Nat) : Lands f calls bound target v s t := by
  refine ⟨h.read, h.only.mono (fun reg hreg => ?_) fun _ => Or.inl⟩
  rcases hreg.touches with hreg | hreg | hreg
  · exact Or.inl hreg
  · exact Or.inr (Or.inl hreg)
  · exact Or.inr (Or.inr (Or.inl hreg))

theorem Leaves.lands {f : Frame} {target : Reservation} {v : Word} {calls : Bool} {bound : Nat}
    {s t u : State} (h : Leaves target v target.Touches t u) (hfits : target.Fits f)
    (honly : ChangesOnly (fun reg => target.location = .reg reg ∨ f.Clobbers calls reg)
      (Scratch (s.regs .framePointer) f.position bound) s t) :
    Lands f calls bound target v s u := by
  refine ⟨h.read, (honly.mono (fun _ => id) fun _ => Or.inr).trans (h.only.mono ?_ ?_)⟩
  · rintro reg (hreg | hreg | hreg)
    · exact Or.inl hreg
    · exact Or.inr (Or.inl hreg)
    · exact Or.inr (Or.inr (Or.inl hreg))
  · have hfp := honly.reg .framePointer fun h =>
      h.elim hfits.receives.1 (Frame.not_clobbers_framePointer f calls)
    rw [hfp]
    exact fun _ => Or.inl

/-! ## Temporaries -/

structure Reserves (f : Frame) (ty : Ty) (res : Reservation) (g : Frame) : Prop where
  ty : res.ty = ty
  fits : res.Fits g
  within : f.Within g
  /-- A register comes from the bank and was free. -/
  free : ∀ reg, res.location = .reg reg →
    reg ∈ Register.tempBank ∧ f.liveRegs.contains reg = false
  /-- A slot lies below all earlier ones. -/
  apart : ∀ offset, res.location = .slot offset → (f.position + res.ty.size : Int) ≤ offset

namespace Reserves

variable {f g : Frame} {ty : Ty} {res : Reservation}

theorem of_slot (hsize : 0 < ty.size) (hfg : f.Within g)
    (hposition : f.position + f.slotSize ty ≤ g.position) :
    Reserves f ty (Slot.reservation ⟨f.position + f.slotSize ty, ty⟩) g := by
  refine ⟨rfl, ⟨_, rfl, hsize, ?_, hposition⟩, hfg, nofun, ?_⟩
  · simp only [Frame.slotSize]
    change ty.size ≤ _
    omega
  · rintro offset heq
    cases heq
    simp only [Frame.slotSize]
    change (f.position + ty.size : Int) ≤ _
    omega

theorem of_run (hrun : (Frame.reserveTemp ty).run f = (.ok res, g)) : Reserves f ty res g := by
  obtain ⟨hsize, ⟨reg, hbank, hfree, rfl, rfl⟩ | ⟨rfl, rfl⟩⟩ := Frame.reserveTemp_ok hrun
  · have hreserved : reg ∉ Register.reserved := by
      rcases Register.mem_tempBank.mp hbank with rfl | ⟨index, rfl⟩ <;>
        simp [Register.reserved, Register.operand]
    refine ⟨rfl, ⟨hreserved, fun _ => ?_⟩, ⟨rfl, Nat.le_refl _, fun other hother => ?_⟩, ?_, nofun⟩
    · simp
    · simp [hother]
    · rintro other heq
      cases heq
      exact ⟨hbank, hfree⟩
  · exact of_slot hsize ⟨rfl, Nat.le_add_right _ _, fun _ => id⟩ (Nat.le_refl _)

theorem of_reserveVariable {slot : Slot} (hrun : (Frame.reserveVariable ty).run f = (.ok slot, g)) :
    Reserves f ty slot.reservation g := by
  obtain ⟨-, hsize, rfl, rfl⟩ := Frame.reserveVariable_ok hrun
  exact of_slot hsize ⟨rfl, Nat.le_add_right _ _, fun _ => id⟩ (Nat.le_refl _)

theorem mono {f₀ g₁ : Frame} (hres : Reserves f ty res g) (hf : f₀.Within f)
    (hg : g.Within g₁) : Reserves f₀ ty res g₁ where
  ty := hres.ty
  fits := hres.fits.within hg
  within := hf.trans (hres.within.trans hg)
  free := fun reg hreg => by
    refine ⟨(hres.free reg hreg).1, ?_⟩
    by_contra hne
    have := hf.live reg (by simpa using hne)
    rw [(hres.free reg hreg).2] at this
    cases this
  apart := fun offset hoffset => by
    have := hres.apart offset hoffset
    have := hf.position
    omega

theorem covers_scratch (hres : Reserves f ty res g) {fp a : Word} {bound : Nat}
    (hbound : g.position ≤ bound) (hlt : bound < 2 ^ 64) (hcovers : res.Covers fp a) :
    Scratch fp f.position bound a := by
  obtain ⟨location, ty'⟩ := res
  cases location with
  | reg reg => exact hcovers.elim
  | unassigned => exact hcovers.elim
  | slot offset =>
    obtain ⟨slot, heq, hsize, hle, hposition⟩ := hres.fits.exists_slot rfl
    have hapart := hres.apart offset rfl
    rw [heq] at hcovers
    cases heq
    have := (Slot.covers_iff hsize hle (by omega)).mp hcovers
    have hty : (Reservation.ty ⟨.slot slot.offset, slot.ty⟩).size = slot.ty.size := rfl
    rw [hty] at hapart
    exact ⟨by omega, by omega⟩

theorem read_eq (hres : Reserves f ty res g) {calls : Bool} {bound : Nat} {s t : State}
    (hlt : g.position < 2 ^ 64)
    (h : ChangesOnly (g.Clobbers calls) (Scratch (s.regs .framePointer) g.position bound) s t) :
    t.read res = s.read res := by
  refine h.read_eq (Frame.not_clobbers_framePointer g calls) (fun reg hreg => ?_) fun a ha hmem => ?_
  · have hfits := hres.fits
    simp only [Reservation.Fits, hreg] at hfits
    exact Frame.not_clobbers_live (hres.free reg hreg).1 (hfits.2 (hres.free reg hreg).1)
  · obtain ⟨location, ty'⟩ := res
    cases location with
    | reg reg => exact ha
    | unassigned => exact ha
    | slot offset =>
      obtain ⟨slot, heq, hsize, hle, hposition⟩ := hres.fits.exists_slot rfl
      rw [heq] at ha
      have := (Slot.covers_iff hsize hle (by omega)).mp ha
      exact absurd hmem.1 (by omega)

theorem only (hres : Reserves f ty res g) {calls : Bool} {bound : Nat} {v : Word} {s t : State}
    (hbound : g.position ≤ bound) (hlt : bound < 2 ^ 64) (h : Lands g calls bound res v s t) :
    ChangesOnly (f.Clobbers calls) (Scratch (s.regs .framePointer) f.position bound) s t := by
  refine h.only.mono (fun reg hreg => ?_) fun a ha => ?_
  · rcases hreg with hreg | hreg
    · exact Or.inr (Or.inr (Or.inl (hres.free reg hreg)))
    · exact hres.within.clobbers hreg
  · rcases ha with ha | ha
    · exact hres.covers_scratch hbound hlt ha
    · exact ha.mono hres.within.position (Nat.le_refl _)

theorem ne_staging (hres : Reserves f ty res g) {target : Reservation} (hfits : target.Fits f) :
    res.location ≠ .reg target.stagingRegister := by
  intro hloc
  obtain ⟨hbank, hfree⟩ := hres.free _ hloc
  obtain ⟨location, ty'⟩ := target
  cases location with
  | reg reg =>
    have hlive : f.liveRegs.contains reg = true := hfits.2 hbank
    rw [Reservation.stagingRegister, Reservation.register?, Option.getD_some, hlive] at hfree
    cases hfree
  | slot offset =>
    simp [Register.mem_tempBank, Reservation.stagingRegister, Reservation.register?,
      Register.staging] at hbank
  | unassigned => exact hfits

end Reserves

end ArmBackend
