import ArmBackend.Proofs.Machine.Straight
import ArmBackend.Proofs.Machine.Transfer

/-!
# Who writes the frame pointer and the link register

The registers that an instruction writes. Straight-line code writes neither the frame pointer nor, but for
calls, the link register.
-/

namespace ArmBackend

namespace Instr

def dests : Instr → List Register
  | .mov dst _ | .movImm dst _ | .movk dst _ _ | .arith _ dst _ _ | .addImm dst _ _ | .subImm dst _ _
  | .addImmPages dst _ _ | .subImmPages dst _ _ | .udiv dst _ _ | .msub dst _ _ _ | .neg dst _
  | .cneg dst _ _ | .mvn dst _ | .maskByte dst _ | .cset dst _ | .load _ dst _ | .adrp dst _
  | .addPageOffset dst _ _ => [dst]
  | .cmp .. | .cmpImm .. | .store .. | .b _ | .bCond .. | .cbnz .. | .ret => []
  | .push _ | .pushPair .. => [.stackPointer]
  | .pop reg => [.stackPointer, reg]
  | .popPair first second => [.stackPointer, first, second]
  | .bl _ => [.linkRegister]
  | .svc _ => [.result]

/-- The instruction leaves the frame pointer and the link register as the prologue set them up. Only a
call may change the link register, and only if `calls`. Nor does the instruction return. -/
structure LeavesRecord (calls : Prop) (instr : Instr) : Prop where
  framePointer : .framePointer ∉ instr.dests
  linkRegister : .linkRegister ∈ instr.dests → (∃ label, instr = .bl label) ∧ calls
  stays : instr ≠ .ret

theorem LeavesRecord.of_dests {calls : Prop} {instr : Instr}
    (h : ∀ reg ∈ instr.dests, reg.Volatile ∨ reg = .stackPointer) (hret : instr ≠ .ret) :
    instr.LeavesRecord calls where
  framePointer hmem := (h _ hmem).elim id nofun
  linkRegister hmem := ((h _ hmem).elim id nofun).elim
  stays := hret

theorem Quiet.leavesRecord {calls : Prop} {instr : Instr} (h : instr.Quiet) :
    instr.LeavesRecord calls := by
  refine .of_dests (fun reg hreg => Or.inl ?_) (by rintro rfl; exact h)
  cases instr <;> simp only [Quiet] at h <;>
    simp only [dests, List.mem_singleton, List.not_mem_nil] at hreg
  all_goals exact hreg ▸ h

theorem Quiet.exec {instr : Instr} (h : instr.Quiet) (symbol : Label → Word) (s : State) :
    ∃ t, instr.exec symbol s = some t ∧ (∀ reg, ¬ reg.Volatile → t.regs reg = s.regs reg) ∧
      t.mem = s.mem := by
  cases instr <;> simp only [Quiet] at h
  case cmp | cmpImm => exact ⟨_, rfl, fun _ _ => rfl, rfl⟩
  all_goals exact ⟨_, rfl, fun reg hreg => State.set_regs_ne s _ fun heq => hreg (heq ▸ h), rfl⟩

end Instr

namespace Code

theorem leavesRecord_pushes {calls : Prop} {regs : List Register} :
    ∀ instr ∈ pushes regs, instr.LeavesRecord calls := by
  have hsp : ∀ instr : Instr, instr.dests = [.stackPointer] → instr.LeavesRecord calls := by
    refine fun instr hdests => .of_dests (fun reg hreg => Or.inr ?_) (by rintro rfl; cases hdests)
    rw [hdests] at hreg
    exact List.mem_singleton.mp hreg
  induction regs using pushes.induct with
  | case1 => exact List.forall_mem_nil _
  | case2 reg => exact List.forall_mem_singleton.mpr (hsp _ rfl)
  | case3 first second regs ih => exact List.forall_mem_cons.mpr ⟨hsp _ rfl, ih⟩

theorem leavesRecord_pops {calls : Prop} {regs : List Register} (hregs : ∀ reg ∈ regs, reg.Volatile) :
    ∀ instr ∈ pops regs, instr.LeavesRecord calls := by
  induction regs using pops.induct with
  | case1 => exact List.forall_mem_nil _
  | case2 reg =>
    refine List.forall_mem_singleton.mpr (.of_dests (fun other hother => ?_) nofun)
    rcases List.mem_cons.mp hother with rfl | hother
    · exact Or.inr rfl
    · exact Or.inl (hregs other hother)
  | case3 first second regs ih =>
    intro instr hinstr
    rcases List.mem_append.mp hinstr with hinstr | hinstr
    · exact ih (fun reg hreg => hregs reg (List.mem_cons_of_mem _ (List.mem_cons_of_mem _ hreg)))
        instr hinstr
    · obtain rfl := List.mem_singleton.mp hinstr
      refine .of_dests (fun other hother => ?_) nofun
      simp only [Instr.dests, List.mem_cons, List.not_mem_nil, or_false] at hother
      rcases hother with rfl | rfl | rfl
      · exact Or.inr rfl
      · exact Or.inl (hregs _ List.mem_cons_self)
      · exact Or.inl (hregs _ (List.mem_cons_of_mem _ List.mem_cons_self))

theorem volatile_storeVia (src : Register) : (storeVia src).Volatile := by
  rcases storeVia_scratch src with h | h <;> exact h ▸ trivial

theorem Straight.leavesRecord {calls : Prop} {writes : Int → Ty → Prop} {code : Code}
    (h : Straight calls writes code) :
    ∀ instr, Line.instr instr ∈ code → instr.LeavesRecord calls := by
  induction h with
  | nil => exact fun _ hmem => absurd hmem List.not_mem_nil
  | quiet h =>
    intro instr hmem
    obtain rfl := List.mem_singleton.mp (mem_ofInstrs.mp hmem)
    exact h.leavesRecord
  | @store src offset ty h =>
    intro instr hmem
    rw [storeSlot_eq] at hmem
    rcases List.mem_append.mp hmem with hmem | hmem
    · exact (quiet_slotAddress (volatile_storeVia src) offset instr hmem).leavesRecord
    · obtain rfl := List.mem_singleton.mp (mem_ofInstrs.mp hmem)
      exact .of_dests (fun _ hreg => absurd hreg List.not_mem_nil) nofun
  | call label hcalls hlive =>
    intro instr hmem
    rcases List.mem_append.mp hmem with hmem | hmem
    · rcases List.mem_append.mp hmem with hmem | hmem
      · exact leavesRecord_pushes instr (mem_ofInstrs.mp hmem)
      · obtain rfl := List.mem_singleton.mp (mem_ofInstrs.mp hmem)
        exact ⟨nofun, fun _ => ⟨⟨label, rfl⟩, hcalls⟩, nofun⟩
    · exact leavesRecord_pops (fun reg hreg => Register.volatile_of_tempBank (hlive.subset hreg)) instr
        (mem_ofInstrs.mp hmem)
  | trap imm =>
    intro instr hmem
    obtain rfl := List.mem_singleton.mp (mem_ofInstrs.mp hmem)
    exact .of_dests (fun reg hreg => Or.inl (List.mem_singleton.mp hreg ▸ trivial)) nofun
  | append _ _ iha ihb =>
    intro instr hmem
    exact (List.mem_append.mp hmem).elim (iha instr) (ihb instr)

end Code

end ArmBackend
