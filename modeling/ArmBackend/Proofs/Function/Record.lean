import ArmBackend.Proofs.Expr.Landing
import ArmBackend.Proofs.Expr.Straight
import ArmBackend.Proofs.Function.Layout
import ArmBackend.Proofs.Machine.Steady

/-!
# The frame record of the caller

The prologue leads to a state that is steady from then on, with the record of the caller out of reach of
slots and pushes, and the epilogue gives the registers back from any such state.
-/

namespace ArmBackend

open ArmBackend.Frame (Spills)

/-- The bytes in which a function that is entered in state `s` saves the frame record. -/
def State.Record (s : State) (a : Word) : Prop := (a - s.pushed.regs .stackPointer).toNat < 16

/-- `t` has the registers that a function gives back to its caller as in `s`. -/
structure Function.Preserves (s t : State) : Prop where
  stackPointer : t.regs .stackPointer = s.regs .stackPointer
  linkRegister : t.regs .linkRegister = s.regs .linkRegister
  kept : ∀ reg, Register.Kept reg → t.regs reg = s.regs reg

namespace FrameLayout

variable {layout : FrameLayout} {highWater : Nat} {calls : Bool} {w : World} {s u : State}

/-- The state that the prologue leads to from `s`, scratch registers aside. -/
def opened (layout : FrameLayout) (s : State) : State :=
  if layout.savesRecord then
    ((s.pushPair (s.regs .framePointer) (s.regs .linkRegister)).set .framePointer
      (s.pushed.regs .stackPointer)).set .stackPointer
        (s.pushed.regs .stackPointer - .ofNat 64 layout.localsSize)
  else s

theorem opened_bare (h : layout.savesRecord = false) (s : State) : layout.opened s = s := by
  rw [opened, h]
  rfl

section Saved

variable (h : layout.savesRecord = true) (s : State)
include h

theorem opened_stackPointer :
    (layout.opened s).regs .stackPointer =
      s.pushed.regs .stackPointer - .ofNat 64 layout.localsSize := by
  rw [opened, if_pos h, State.set_regs_self]

theorem opened_framePointer : (layout.opened s).regs .framePointer = s.pushed.regs .stackPointer := by
  rw [opened, if_pos h, State.set_regs_ne _ _ (by decide), State.set_regs_self]

theorem opened_regs (reg : Register) (hsp : reg ≠ .stackPointer) (hfp : reg ≠ .framePointer) :
    (layout.opened s).regs reg = s.regs reg := by
  rw [opened, if_pos h, State.set_regs_ne _ _ hsp, State.set_regs_ne _ _ hfp]
  exact State.set_regs_ne s _ hsp

theorem opened_mem :
    (layout.opened s).mem = (s.pushPair (s.regs .framePointer) (s.regs .linkRegister)).mem := by
  rw [opened, if_pos h]
  rfl

end Saved

theorem ensures_prologue_steady (hlayout : layout = ofHighWater highWater calls)
    (haligned : s.StackAligned) :
    Code.Ensures w layout.prologue s (Steady s.Record (calls = true) 0 (layout.opened s)) := by
  cases hsaves : layout.savesRecord with
  | true =>
    refine (ensures_prologue hsaves haligned).mono fun t ht => ⟨?_, fun reg hreg => ?_, fun _ => ?_, fun a _ => ?_⟩
    · rw [opened_stackPointer hsaves, ht.stackPointer, ht.framePointer]
      exact (BitVec.sub_zero _).symm
    · rcases hreg with rfl | ⟨index, rfl⟩
      · rw [opened_framePointer hsaves, ht.framePointer]
      · rw [opened_regs hsaves s (.calleeSaved index) nofun nofun,
          ht.other (.calleeSaved index) nofun nofun nofun]
    · rw [opened_regs hsaves s .linkRegister (by decide) (by decide),
        ht.other .linkRegister (by decide) (by decide) (by decide)]
    · rw [opened_mem hsaves, ht.mem]
  | false =>
    rw [opened_bare hsaves]
    rw [(bare hlayout hsaves).prologue]
    exact .refl _ _ s

theorem clear_opened (hlayout : layout = ofHighWater g.highWater calls)
    (hsize : layout.localsSize + 80 ≤ 2 ^ 64) (haligned : s.StackAligned) :
    Clear s.Record (calls = true) (Spills {} g) (layout.opened s) := by
  have hpeak : g.highWater ≤ layout.localsSize := hlayout ▸ le_localsSize _ _
  have hmod : layout.localsSize % 16 = 0 := by
    rw [hlayout]
    exact alignUp_mod _ _
  have hpointer := (s.pushed.regs .stackPointer).isLt
  cases hsaves : layout.savesRecord with
  | true =>
    refine ⟨fun {offset ty} hspills a ha hcovers => ?_, fun _ a ha => ?_, fun _ => ?_⟩
    · obtain ⟨hpos, hlow, hhigh⟩ := hspills
      obtain ⟨n, rfl⟩ := Int.eq_ofNat_of_zero_le (show 0 ≤ offset by omega)
      rw [opened_framePointer hsaves] at hcovers
      have hslot : (Slot.reservation ⟨n, ty⟩).Covers (s.pushed.regs .stackPointer) a := hcovers
      have hle : ty.size ≤ n := by omega
      have hlt : n < 2 ^ 64 := by omega
      obtain ⟨hlow', hhigh'⟩ : n - ty.size < below (s.pushed.regs .stackPointer) a ∧
          below (s.pushed.regs .stackPointer) a ≤ n := (Slot.covers_iff hpos hle hlt).mp hslot
      rw [State.Record, BitVec.toNat_sub] at ha
      rw [below, BitVec.toNat_sub] at hlow' hhigh'
      omega
    · rw [opened_stackPointer hsaves]
      rw [State.Record, BitVec.toNat_sub] at ha
      simp only [below, BitVec.toNat_sub, BitVec.toNat_ofNat]
      omega
    · have haligned' := State.pushed_aligned haligned
      rw [State.StackAligned] at haligned' ⊢
      rw [opened_stackPointer hsaves, BitVec.toNat_sub, BitVec.toNat_ofNat]
      omega
  | false =>
    obtain ⟨hcalls, hzero, -, -, -, -⟩ := bare hlayout hsaves
    refine ⟨fun {offset ty} hspills => ?_, fun h => ?_, fun h => ?_⟩
    · obtain ⟨hpos, hlow, hhigh⟩ := hspills
      omega
    · exact absurd (hcalls.symm.trans h) (by decide)
    · exact absurd (hcalls.symm.trans h) (by decide)

theorem ensures_close_preserves (hlayout : layout = ofHighWater highWater calls)
    (haligned : s.StackAligned) (hu : Steady s.Record (calls = true) 0 (layout.opened s) u) :
    Code.Ensures w layout.close u (Function.Preserves s) := by
  cases hsaves : layout.savesRecord with
  | true =>
    have hpointer := hu.pointer
    have hframe := hu.reg .framePointer (Or.inl rfl)
    rw [opened_stackPointer hsaves, BitVec.sub_zero] at hpointer
    rw [opened_framePointer hsaves] at hframe
    have hkeeps : layout.Keeps s u := by
      refine ⟨hframe, by rw [hpointer, hframe], fun a ha => ?_⟩
      rw [hu.byte a ha, opened_mem hsaves]
    refine (ensures_close hsaves haligned hkeeps).mono fun t ht =>
      ⟨ht.stackPointer, ht.linkRegister, fun reg hreg => ?_⟩
    rcases hreg with rfl | ⟨index, rfl⟩
    · exact ht.framePointer
    · rw [ht.other (.calleeSaved index) nofun nofun nofun nofun, hu.reg _ (Or.inr ⟨index, rfl⟩),
        opened_regs hsaves s (.calleeSaved index) nofun nofun]
  | false =>
    rw [opened_bare hsaves] at hu
    have hbare := bare hlayout hsaves
    rw [hbare.close]
    have hnot : ¬ calls = true := by simp [hbare.calls]
    exact ⟨hu.pointer.trans (BitVec.sub_zero _), hu.link hnot, hu.reg⟩

theorem bl_not_mem_adjustStack (change : Code.StackChange) (size : Nat) (label : Label) :
    Line.instr (.bl label) ∉ Code.adjustStack change size := by
  have hstaging : Register.staging.Volatile := trivial
  simp only [Code.adjustStack]
  split
  · cases change <;> simp [Code.ofInstrs]
  · split
    · cases change <;> simp [Code.ofInstrs]
    · refine fun hmem => (List.mem_append.mp hmem).elim (Code.quiet_constant hstaging _ _) ?_
      cases change <;> simp [Code.ofInstrs]

theorem bl_not_mem_prologue (layout : FrameLayout) (label : Label) :
    Line.instr (.bl label) ∉ layout.prologue := by
  refine fun hmem => (List.mem_append.mp hmem).elim ?_ ?_
  · split <;> simp [Code.ofInstrs]
  · split
    · exact bl_not_mem_adjustStack _ _ label
    · exact List.not_mem_nil

theorem bl_not_mem_close (layout : FrameLayout) (label : Label) :
    Line.instr (.bl label) ∉ layout.close := by
  refine fun hmem => (List.mem_append.mp hmem).elim ?_ ?_
  · split
    · exact bl_not_mem_adjustStack _ _ label
    · exact List.not_mem_nil
  · split <;> simp [Code.ofInstrs]

end FrameLayout

end ArmBackend
