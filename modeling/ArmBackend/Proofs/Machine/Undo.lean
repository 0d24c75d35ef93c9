import ArmBackend.Proofs.Machine.Saves
import ArmBackend.Proofs.Machine.Trace
import Mathlib.Data.List.Perm.Subperm

/-!
# Saved registers come back

Pushing any registers and popping them again is undone exactly, whatever is computed in between above
the bytes that they were pushed to, and without a misaligned stack at any point.
-/

namespace ArmBackend

theorem Register.mem_all (reg : Register) : reg ∈ Register.all := by
  cases reg <;> simp [Register.all, Register.argBank, Register.tempBank]

theorem saveSize_lt {regs : List Register} (h : regs.Nodup) : saveSize regs.length < 2 ^ 64 := by
  have hlength : regs.length ≤ Register.all.length := (h.subperm fun reg _ => reg.mem_all).length_le
  have hall : Register.all.length = 31 := by decide
  rw [saveSize, saveSlotSize]
  omega

theorem Sunk.revisits_of_returns {size : Nat} {s t u : State} (h : Sunk size s t)
    (hroom : size ≤ (s.regs .stackPointer).toNat) (hu : Returns t u) : Revisits size t u := by
  have hpointer := (h.deeper hroom).pointer_toNat hroom
  have hlt := (s.regs .stackPointer).isLt
  exact (hu.within size).revisits (by omega)

namespace Code

variable {symbol : Label → Word} {I Q : State → Prop} {code : Code} {s : State}

/-- Before each line and after the last one, the state exists and satisfies `I`. -/
def Along (symbol : Label → Word) (I : State → Prop) (code : Code) (s : State) : Prop :=
  ∀ count, ∃ t, exec symbol (code.take count) s = some t ∧ I t

theorem Maintains.along (h : Maintains (alone symbol) I code s Q) (hQ : ∀ t, Q t → I t) :
    code.Along symbol I s := by
  intro count
  induction code generalizing s count with
  | nil => exact ⟨s, by rw [List.take_nil, exec], hQ s h⟩
  | cons line code ih =>
    cases line with
    | label label => exact h.elim
    | directive directive => exact h.elim
    | instr instr =>
      obtain ⟨hfirst, hrest⟩ := h
      cases count with
      | zero => exact ⟨s, rfl, hfirst⟩
      | succ count =>
        have hstep : ∃ u, instr.exec symbol s = some u ∧ Maintains (alone symbol) I code u Q := by
          cases instr <;> first | exact hrest | exact hrest.elim
        obtain ⟨u, hu, hcode⟩ := hstep
        obtain ⟨t, ht, hI⟩ := ih hcode count
        exact ⟨t, by rw [List.take_succ_cons, exec, hu, Option.bind_some, ht], hI⟩

/-- Registers that are pushed come back when they are popped, and so does the stack pointer, if a
computation in between gives back the stack pointer and the bytes that were pushed. The stack is aligned all
the way. Pushing changes no other bytes and no other register than the stack pointer, and popping
none but the listed ones. Where the stack has room, all that is at the stack pointer and above stays. -/
theorem restoreRegs_undoes_saveRegs (symbol : Label → Word) {regs : List Register} (hregs : regs.Nodup)
    (hpointer : .stackPointer ∉ regs) {s : State} (haligned : s.StackAligned) :
    (saveRegs regs).Along symbol State.StackAligned s ∧
    ∃ s₁, (saveRegs regs).exec symbol s = some s₁ ∧ Sunk (saveSize regs.length) s s₁ ∧
      (∀ u, Revisits (saveSize regs.length) s₁ u →
        (restoreRegs regs).Along symbol State.StackAligned u ∧
        ∃ t, (restoreRegs regs).exec symbol u = some t ∧ Restores regs s u t) ∧
      (saveSize regs.length ≤ (s.regs .stackPointer).toNat → ∀ u, Returns s₁ u →
        Revisits (saveSize regs.length) s₁ u ∧
        ∀ a, (s.regs .stackPointer).toNat ≤ a.toNat → s₁.mem a = s.mem a ∧ u.mem a = s.mem a) := by
  have hsave := maintains_saveRegs (w := alone symbol) haligned hpointer (saveSize_lt hregs)
  refine ⟨hsave.along fun s₁ hs₁ => hs₁.2.1, ?_⟩
  obtain ⟨s₁, hexec, hsunk, -, hback⟩ := exec_of_ensures hsave.ensures
  refine ⟨s₁, hexec, hsunk, fun u hu => ?_, fun hroom u hu => ⟨hsunk.revisits_of_returns hroom hu, ?_⟩⟩
  · have hrestore := hback u hu
    have haligned' : ∀ t, Restores regs s u t → t.StackAligned := fun t ht => by
      rwa [State.StackAligned, ht.pointer]
    exact ⟨hrestore.along haligned', exec_of_ensures hrestore.ensures⟩
  · intro a ha
    have hdeeper := hsunk.deeper hroom
    have hheight := hdeeper.pointer_toNat hroom
    have hbyte := hdeeper.byte a ha
    exact ⟨hbyte, (hu.byte a (by omega)).trans hbyte⟩

/-- Three registers, which the computation in between clears. -/
theorem restoreRegs_undoes_saveRegs_cleared :
    let regs : List Register := [.indirectResult, .linkRegister, .arg 5]
    let s : State := ⟨fun reg => if reg = .stackPointer then 8192 else .ofNat 64 reg.number, fun _ => 7,
      .compare 0 0⟩
    regs.Nodup ∧ .stackPointer ∉ regs ∧ s.StackAligned ∧
      ∃ s₁ t, (saveRegs regs).exec (fun _ => 0) s = some s₁ ∧ s₁.regs .stackPointer = 8160 ∧
        (restoreRegs regs).exec (fun _ => 0)
          { s₁ with regs := fun reg => if reg = .stackPointer then 8160 else 0 } = some t ∧
        t.regs .stackPointer = 8192 ∧ t.regs .indirectResult = 8 ∧ t.regs .linkRegister = 30 ∧
        t.regs (.arg 5) = 5 ∧ t.regs (.arg 4) = 0 := by
  intro regs s
  have hregs : regs.Nodup := by decide
  have hpointer : .stackPointer ∉ regs := by decide
  have haligned : s.StackAligned := by decide
  obtain ⟨-, s₁, hsave, hsunk, hback, -⟩ :=
    restoreRegs_undoes_saveRegs (fun _ => 0) hregs hpointer haligned
  have hsp : s₁.regs .stackPointer = 8160 := hsunk.pointer.trans (by decide)
  obtain ⟨-, t, hrestore, ht⟩ :=
    hback { s₁ with regs := fun reg => if reg = .stackPointer then 8160 else 0 } ⟨hsp.symm, fun _ _ => rfl⟩
  exact ⟨hregs, hpointer, haligned, s₁, t, hsave, hsp, hrestore, ht.pointer,
    ht.saved .indirectResult (by decide), ht.saved .linkRegister (by decide),
    ht.saved (.arg 5) (by decide), ht.other (.arg 4) (by decide) (by decide)⟩

end Code

end ArmBackend
