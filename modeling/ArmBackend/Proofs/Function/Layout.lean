import ArmBackend.FrameLayout
import ArmBackend.Proofs.Machine.Saves
import ArmBackend.Proofs.Machine.Transfer

/-!
# What prologue and epilogue ensure

The prologue saves the frame record and makes room for the slots. If the code in between leaves what it
finds at the frame pointer and above, the epilogue restores the record and the stack pointer.
-/

namespace ArmBackend

namespace Code

variable {w : World} {s : State}

def StackChange.apply (change : StackChange) (pointer : Word) (size : Nat) : Word :=
  match change with
  | .grow => pointer - .ofNat 64 size
  | .shrink => pointer + .ofNat 64 size

theorem adjustStack_moves (change : StackChange) (size : Nat) (s : State) :
    ∃ v, (size ≤ 4095 ∨ 4096 ∣ size ∧ size ≤ 4095 * 4096 → v = s.regs .staging) ∧
      ∀ Q, Ensures w (adjustStack change size) s Q ↔
        Q ((s.set .staging v).set .stackPointer (change.apply (s.regs .stackPointer) size)) := by
  have hstaging : Register.stackPointer ≠ .staging := by decide
  by_cases hsmall : size ≤ 4095
  · refine ⟨s.regs .staging, fun _ => rfl, fun Q => ?_⟩
    cases change <;> simp [adjustStack, maxAddImm, hsmall, Instr.Ensures, Instr.exec, StackChange.apply]
  · by_cases hpages : size % 4096 = 0 ∧ size / 4096 ≤ 4095
    · have hsize : size / 4096 * 4096 = size := Nat.div_mul_cancel (Nat.dvd_of_mod_eq_zero hpages.1)
      refine ⟨s.regs .staging, fun _ => rfl, fun Q => ?_⟩
      cases change <;>
        simp [adjustStack, maxAddImm, hsmall, hpages, hsize, Instr.Ensures, Instr.exec, StackChange.apply]
    · refine ⟨.ofNat 64 size, fun hfits => by omega, fun Q => ?_⟩
      cases change <;>
        simp [adjustStack, maxAddImm, hsmall, hpages, Instr.Ensures, Instr.exec, Arith.eval,
          StackChange.apply, State.set_regs_ne _ _ hstaging]

theorem ensures_adjustStack (change : StackChange) (size : Nat) :
    Ensures w (adjustStack change size) s fun t =>
      t.regs .stackPointer = change.apply (s.regs .stackPointer) size ∧
        ChangesOnly (fun reg => reg = .stackPointer ∨ reg = .staging) (fun _ => False) s t := by
  obtain ⟨v, -, hmoves⟩ := adjustStack_moves (w := w) change size s
  have hstaged : ChangesOnly (fun reg => reg = .stackPointer ∨ reg = .staging) (fun _ => False) s
      (s.set .staging v) := .set (Or.inr rfl)
  exact (hmoves _).mpr ⟨State.set_regs_self _ _ _, hstaged.trans (.set (Or.inl rfl))⟩

end Code

namespace FrameLayout

variable {layout : FrameLayout} {w : World} {s t u : State}

/-- `t` is the state after the prologue of a function that saves the frame record and was entered in
state `s`. -/
structure Opens (layout : FrameLayout) (s t : State) : Prop where
  framePointer : t.regs .framePointer = s.pushed.regs .stackPointer
  stackPointer : t.regs .stackPointer = t.regs .framePointer - .ofNat 64 layout.localsSize
  other : ∀ reg, reg ≠ .framePointer → reg ≠ .stackPointer → reg ≠ .staging →
    t.regs reg = s.regs reg
  mem : t.mem = (s.pushPair (s.regs .framePointer) (s.regs .linkRegister)).mem

theorem ensures_prologue (hsaves : layout.savesRecord = true) (haligned : s.StackAligned) :
    Code.Ensures w layout.prologue s (layout.Opens s) := by
  obtain ⟨localsSize, savesRecord⟩ := layout
  cases hsaves
  have hpointer : Register.stackPointer ≠ .framePointer := by decide
  have hstaging : Register.framePointer ≠ .staging := by decide
  rw [prologue, if_pos rfl, Code.ensures_append]
  refine ⟨s.pushPair (s.regs .framePointer) (s.regs .linkRegister), if_pos haligned, _, rfl, ?_⟩
  split
  case isTrue hsize =>
    refine (Code.ensures_adjustStack .grow localsSize).mono fun t ⟨hsp, honly⟩ => ?_
    have hfp := honly.reg .framePointer (by decide)
    rw [State.set_regs_self] at hfp
    refine ⟨hfp, ?_, fun reg hne hne' hne'' => ?_, funext fun a => honly.byte a id⟩
    · rw [hsp, hfp, State.set_regs_ne _ _ hpointer]
      rfl
    · rw [honly.reg reg (fun h => h.elim hne' hne''), State.set_regs_ne _ _ hne]
      exact State.set_regs_ne _ _ hne'
  case isFalse hsize =>
    obtain rfl : localsSize = 0 := Nat.eq_zero_of_not_pos hsize
    refine ⟨State.set_regs_self _ _ _, ?_, fun reg hne hne' _ => ?_, rfl⟩
    · rw [State.set_regs_self, State.set_regs_ne _ _ hpointer, BitVec.sub_zero]
    · rw [State.set_regs_ne _ _ hne]
      exact State.set_regs_ne _ _ hne'

structure Closes (s u t : State) : Prop where
  stackPointer : t.regs .stackPointer = s.regs .stackPointer
  framePointer : t.regs .framePointer = s.regs .framePointer
  linkRegister : t.regs .linkRegister = s.regs .linkRegister
  other : ∀ reg, reg ≠ .stackPointer → reg ≠ .framePointer → reg ≠ .linkRegister → reg ≠ .staging →
    t.regs reg = u.regs reg
  mem : t.mem = u.mem

def close (layout : FrameLayout) : Code :=
  (if 0 < layout.localsSize then Code.adjustStack .shrink layout.localsSize else []) ++
  if layout.savesRecord then Code.ofInstrs [.popPair .framePointer .linkRegister] else []

theorem epilogue_eq (layout : FrameLayout) : layout.epilogue = layout.close ++ Code.ofInstrs [.ret] := rfl

structure Keeps (layout : FrameLayout) (s u : State) : Prop where
  framePointer : u.regs .framePointer = s.pushed.regs .stackPointer
  stackPointer : u.regs .stackPointer = u.regs .framePointer - .ofNat 64 layout.localsSize
  record : ∀ a, (a - s.pushed.regs .stackPointer).toNat < 16 →
    u.mem a = (s.pushPair (s.regs .framePointer) (s.regs .linkRegister)).mem a

theorem ensures_close (hsaves : layout.savesRecord = true) (haligned : s.StackAligned)
    (hkeeps : layout.Keeps s u) :
    Code.Ensures w layout.close u (Closes s u) := by
  obtain ⟨localsSize, savesRecord⟩ := layout
  cases hsaves
  -- The stack pointer is back at the record.
  have hadjust : Code.Ensures w
      (if 0 < localsSize then Code.adjustStack .shrink localsSize else []) u fun t =>
        t.regs .stackPointer = s.pushed.regs .stackPointer ∧
          ChangesOnly (fun reg => reg = .stackPointer ∨ reg = .staging) (fun _ => False) u t := by
    split
    case isTrue hsize =>
      refine (Code.ensures_adjustStack .shrink localsSize).mono fun t ⟨hsp, honly⟩ => ⟨?_, honly⟩
      rw [hsp, hkeeps.stackPointer, hkeeps.framePointer]
      exact BitVec.sub_add_cancel _ _
    case isFalse hsize =>
      obtain rfl : localsSize = 0 := Nat.eq_zero_of_not_pos hsize
      refine ⟨?_, .refl _ _ u⟩
      rw [hkeeps.stackPointer, hkeeps.framePointer, BitVec.sub_zero]
  rw [close, Code.ensures_append]
  refine hadjust.mono fun t ⟨hsp, honly⟩ => ?_
  obtain ⟨hframe, hlink⟩ := State.load_record (t := t) fun a ha =>
    (honly.byte a id).trans (hkeeps.record a ha)
  rw [← hsp] at hframe hlink
  have haligned' : t.StackAligned := by
    rw [State.StackAligned, hsp]
    exact State.pushed_aligned haligned
  refine ⟨_, if_pos haligned', ?_, ?_, ?_, fun reg hne hne' hne'' hstaging => ?_, ?_⟩
  · rw [State.set_regs_ne _ _ (by decide), State.set_regs_ne _ _ (by decide), State.popped,
      State.set_regs_self, hsp]
    exact State.pushed_popped_pointer s
  · rw [State.set_regs_ne _ _ (by decide), State.set_regs_self, hframe]
  · rw [State.set_regs_self, hlink]
  · rw [State.set_regs_ne _ _ hne'', State.set_regs_ne _ _ hne', State.popped,
      State.set_regs_ne _ _ hne]
    exact honly.reg reg fun h => h.elim hne hstaging
  · exact funext fun a => honly.byte a id

theorem le_localsSize (highWater : Nat) (calls : Bool) :
    highWater ≤ (ofHighWater highWater calls).localsSize := le_alignUp highWater (by decide)

/-- The layout of a function that calls nothing and has no slots. Nothing is done on entry, and nothing is left
to do on exit but to return. -/
structure Bare (layout : FrameLayout) (calls : Bool) : Prop where
  calls : calls = false
  localsSize : layout.localsSize = 0
  totalSize : layout.totalSize = 0
  prologue : layout.prologue = []
  close : layout.close = []
  epilogue : layout.epilogue = Code.ofInstrs [.ret]

theorem bare {highWater : Nat} {calls : Bool} (hlayout : layout = ofHighWater highWater calls)
    (h : layout.savesRecord = false) : layout.Bare calls := by
  have hnone : calls = false ∧ layout.localsSize = 0 := by
    rw [hlayout] at h ⊢
    simp only [ofHighWater, Bool.or_eq_false_iff, decide_eq_false_iff_not] at h ⊢
    exact ⟨h.1, Nat.eq_zero_of_not_pos h.2⟩
  obtain ⟨hcalls, hsize⟩ := hnone
  refine ⟨hcalls, hsize, ?_, ?_, ?_, ?_⟩
  · simp [FrameLayout.totalSize, h, hsize]
  · simp [FrameLayout.prologue, h, hsize]
  · simp [FrameLayout.close, h, hsize]
  · simp [FrameLayout.epilogue, h, hsize]

end FrameLayout

end ArmBackend
