import ArmBackend.Arguments
import ArmBackend.Proofs.Machine.Operation
import ArmBackend.Assembly.Saves

/-!
# Straight-line code

Code without labels and branches, as the pieces that it is put together from: lines that change nothing
but free registers, stores into slots of the frame, traps, and calls between pushes and pops.
-/

namespace ArmBackend

namespace Register

/-- Registers that a function changes without restoring them. The link register is not one of them. -/
def Volatile : Register → Prop
  | .arg _ | .indirectResult | .temp _ | .scratch _ => True
  | .calleeSaved _ | .framePointer | .linkRegister | .stackPointer => False

/-- Registers that a function leaves as they were. The stack pointer is not one of them. -/
def Kept (reg : Register) : Prop := reg = .framePointer ∨ ∃ index, reg = .calleeSaved index

theorem Kept.not_volatile {reg : Register} (h : reg.Kept) : ¬ reg.Volatile := by
  rcases h with rfl | ⟨index, rfl⟩ <;> exact id

theorem Kept.ne_stackPointer {reg : Register} (h : reg.Kept) : reg ≠ .stackPointer := by
  rintro rfl
  rcases h with h | ⟨index, h⟩ <;> cases h

theorem volatile_of_tempBank {reg : Register} (h : reg ∈ tempBank) : reg.Volatile := by
  simp only [tempBank, List.mem_cons, List.mem_map] at h
  rcases h with rfl | ⟨index, -, rfl⟩ <;> trivial

theorem volatile_of_argBank {reg : Register} (h : reg ∈ argBank) : reg.Volatile := by
  simp only [argBank, List.mem_map] at h
  obtain ⟨index, -, rfl⟩ := h
  trivial

end Register

theorem volatile_of_argRegisters {count : Nat} {regs : List Register}
    (h : argRegisters count = .ok regs) : ∀ reg ∈ regs, reg.Volatile := by
  rw [argRegisters] at h
  split at h <;> cases h
  exact fun reg hreg => Register.volatile_of_argBank (List.mem_of_mem_take hreg)

/-- Whether the instruction changes nothing but flags and one volatile register. -/
def Instr.Quiet : Instr → Prop
  | .mov dst _ | .movImm dst _ | .movk dst _ _ | .arith _ dst _ _ | .subImm dst _ _ | .neg dst _
  | .mvn dst _ | .maskByte dst _ | .cset dst _ | .load _ dst _ | .adrp dst _
  | .addPageOffset dst _ _ => dst.Volatile
  | .cmp .. | .cmpImm .. => True
  | _ => False

namespace Reservation

def Volatile (res : Reservation) : Prop := ∀ reg, res.location = .reg reg → reg.Volatile

def Occupies (res : Reservation) (offset : Int) (ty : Ty) : Prop := res = ⟨.slot offset, ty⟩

theorem Volatile.staging {res : Reservation} (h : res.Volatile) : res.stagingRegister.Volatile := by
  obtain ⟨location, ty⟩ := res
  cases location with
  | reg reg => exact h reg rfl
  | slot offset => trivial
  | unassigned => trivial

theorem volatile_inRegister (res : Reservation) {reg : Register} (h : reg.Volatile) :
    (res.inRegister reg).Volatile := by
  rintro _ ⟨⟩
  exact h

end Reservation

namespace Code

/-- Straight-line code whose stores go to slots that satisfy `writes`, and which calls only if `calls`. -/
inductive Straight (calls : Prop) (writes : Int → Ty → Prop) : Code → Prop
  | nil : Straight calls writes []
  | quiet {instr : Instr} (h : instr.Quiet) : Straight calls writes (ofInstrs [instr])
  | store (src : Register) {offset : Int} {ty : Ty} (h : writes offset ty) :
      Straight calls writes (storeSlot src offset ty)
  | call (label : Label) {live : List Register} (hcalls : calls) (hlive : live.Sublist Register.tempBank) :
      Straight calls writes (saveRegs live ++ ofInstrs [.bl label] ++ restoreRegs live)
  | trap (imm : Nat) : Straight calls writes (ofInstrs [.svc imm])
  | append {a b : Code} (ha : Straight calls writes a) (hb : Straight calls writes b) :
      Straight calls writes (a ++ b)

namespace Straight

variable {calls : Prop} {writes writes' : Int → Ty → Prop}

theorem mono {code : Code} (h : Straight calls writes code)
    (hwrites : ∀ offset ty, writes offset ty → writes' offset ty) : Straight calls writes' code := by
  induction h with
  | nil => exact .nil
  | quiet h => exact .quiet h
  | store src h => exact .store src (hwrites _ _ h)
  | call label hcalls hlive => exact .call label hcalls hlive
  | trap imm => exact .trap imm
  | append _ _ iha ihb => exact .append iha ihb

theorem quiets {instrs : List Instr} (h : ∀ instr ∈ instrs, instr.Quiet) :
    Straight calls writes (ofInstrs instrs) := by
  induction instrs with
  | nil => exact .nil
  | cons instr instrs ih =>
    exact .append (.quiet (h instr List.mem_cons_self))
      (ih fun other hother => h other (List.mem_cons_of_mem _ hother))

theorem split {kept stored : Int → Ty → Prop} {code : Code} (h : Straight calls writes code) (hne : code ≠ [])
    (hwrites : ∀ {offset ty}, writes offset ty → kept offset ty ∨ stored offset ty) :
    ∃ a b, code = a ++ b ∧ a ≠ [] ∧ Straight calls writes b ∧
      (Straight calls kept a ∨ ∃ src offset ty, stored offset ty ∧ a = storeSlot src offset ty) := by
  induction h with
  | nil => exact absurd rfl hne
  | quiet h => exact ⟨_, [], (List.append_nil _).symm, hne, .nil, Or.inl (.quiet h)⟩
  | @store src offset ty h =>
    exact ⟨_, [], (List.append_nil _).symm, hne, .nil,
      (hwrites h).imp (.store src) fun hstored => ⟨src, offset, ty, hstored, rfl⟩⟩
  | call label hcalls hlive =>
    exact ⟨_, [], (List.append_nil _).symm, hne, .nil, Or.inl (.call label hcalls hlive)⟩
  | trap imm => exact ⟨_, [], (List.append_nil _).symm, hne, .nil, Or.inl (.trap imm)⟩
  | @append a b ha hb iha ihb =>
    by_cases hempty : a = []
    · subst hempty
      exact ihb hne
    · obtain ⟨first, more, rfl, hfirst, hmore, hpiece⟩ := iha hempty
      exact ⟨first, more ++ b, List.append_assoc .., hfirst, .append hmore hb, hpiece⟩

end Straight

/-! ## Moves -/

variable {calls : Prop} {writes : Int → Ty → Prop} {code : Code} {dst : Register}

theorem straight_move (h : dst.Volatile) (src : Register) : Straight calls writes (move dst src) := by
  rw [move]
  split
  · exact .nil
  · exact .quiet h

theorem mem_ofInstrs {instr : Instr} {instrs : List Instr} :
    Line.instr instr ∈ ofInstrs instrs ↔ instr ∈ instrs := by
  simp [ofInstrs]

theorem quiet_constant (h : dst.Volatile) (bits : Word) :
    ∀ instr, Line.instr instr ∈ constant dst bits → instr.Quiet := by
  intro instr hinstr
  rcases List.mem_cons.mp (mem_ofInstrs.mp hinstr) with rfl | hinstr
  · exact h
  · obtain ⟨shift, -, hshift⟩ := List.mem_filterMap.mp hinstr
    split at hshift <;> cases hshift
    exact h

theorem quiet_frameAddress (h : dst.Volatile) (offset : Int) :
    ∀ instr, Line.instr instr ∈ frameAddress dst offset → instr.Quiet := by
  intro instr hinstr
  simp only [frameAddress] at hinstr
  split at hinstr
  · obtain rfl := List.mem_singleton.mp (mem_ofInstrs.mp hinstr)
    exact h
  · rcases List.mem_append.mp hinstr with hinstr | hinstr
    · exact quiet_constant h _ instr hinstr
    · obtain rfl := List.mem_singleton.mp (mem_ofInstrs.mp hinstr)
      exact h

theorem quiet_slotAddress (h : dst.Volatile) (offset : Int) :
    ∀ instr, Line.instr instr ∈ (slotAddress dst offset).1 → instr.Quiet := by
  intro instr hinstr
  rw [slotAddress] at hinstr
  split at hinstr
  · exact absurd hinstr List.not_mem_nil
  · exact quiet_frameAddress h offset instr hinstr

theorem straight_constant (h : dst.Volatile) (bits : Word) : Straight calls writes (constant dst bits) :=
  .quiets fun instr hinstr => quiet_constant h bits instr (mem_ofInstrs.mpr hinstr)

theorem straight_frameAddress (h : dst.Volatile) (offset : Int) :
    Straight calls writes (frameAddress dst offset) := by
  simp only [frameAddress]
  split
  · exact .quiet h
  · exact .append (straight_constant h _) (.quiet h)

theorem straight_labelAddress (h : dst.Volatile) (label : Label) :
    Straight calls writes (labelAddress dst label) := by
  refine .quiets fun instr hinstr => ?_
  simp only [List.mem_cons, List.not_mem_nil, or_false] at hinstr
  rcases hinstr with rfl | rfl <;> exact h

theorem straight_loadSlot (h : dst.Volatile) (offset : Int) (ty : Ty) :
    Straight calls writes (loadSlot dst offset ty) := by
  simp only [loadSlot, slotAddress]
  split
  · exact .quiet h
  · exact .append (straight_frameAddress h offset) (.quiet h)

theorem straight_copy {source target : Reservation} (h : copy source target = .ok code)
    (htarget : target.Volatile) : Straight calls target.Occupies code := by
  obtain ⟨source, sourceTy⟩ := source
  obtain ⟨target, targetTy⟩ := target
  rw [copy] at h
  split at h
  case isTrue =>
    cases h
    exact .nil
  case isFalse =>
    cases source <;> cases target <;> cases h
    case reg.reg src dst _ => exact straight_move (htarget dst rfl) src
    case reg.slot src offset _ => exact .store src rfl
    case slot.reg offset dst _ => exact straight_loadSlot (htarget dst rfl) offset sourceTy
    case slot.slot src dst _ =>
      have hstaging : Register.staging.Volatile := trivial
      exact .append (straight_loadSlot hstaging src sourceTy) (.store _ rfl)

theorem straight_putConstant {target : Reservation} {bits : Word}
    (h : putConstant target bits = .ok code) (htarget : target.Volatile) :
    Straight calls target.Occupies code := by
  obtain ⟨target, ty⟩ := target
  cases target with
  | unassigned => cases h
  | reg dst =>
    cases h
    exact straight_constant (htarget dst rfl) bits
  | slot offset =>
    cases h
    have hstaging : Register.staging.Volatile := trivial
    exact .append (straight_constant hstaging bits) (.store _ rfl)

theorem straight_operandOf {res : Reservation} {src : Register}
    (h : operandOf res = .ok (code, src)) : Straight calls writes code := by
  obtain ⟨location, ty⟩ := res
  cases location with
  | unassigned => cases h
  | reg reg =>
    cases h
    exact .nil
  | slot offset =>
    cases h
    have hoperand : Register.operand.Volatile := trivial
    exact straight_loadSlot hoperand offset ty

theorem straight_truncate (h : dst.Volatile) (ty : Ty) : Straight calls writes (truncate ty dst) := by
  rw [truncate]
  split
  · exact .quiet h
  · exact .nil

end Code

/-! ## Operators -/

open Code (Straight)

variable {calls : Prop} {target : Reservation} {code : Code}

theorem Code.straight_inRegister {source : Reservation} {reg : Register} {writes : Int → Ty → Prop}
    (h : Code.copy source (target.inRegister reg) = .ok code) (hreg : reg.Volatile) :
    Straight calls writes code :=
  (straight_copy h (target.volatile_inRegister hreg)).mono fun _ _ => nofun

theorem BinOp.straight_code {op : BinOp} {lhs rhs : Reservation}
    (h : op.code target lhs rhs = .ok code) (htarget : target.Volatile) :
    Straight calls target.Occupies code := by
  obtain ⟨setup, hsetup, h₁⟩ := StepM.outcome_bind_eq_ok.mp h
  obtain ⟨⟨load, src⟩, hload, h₂⟩ := StepM.outcome_bind_eq_ok.mp h₁
  obtain ⟨finish, hfinish, h₃⟩ := StepM.outcome_bind_eq_ok.mp h₂
  cases h₃
  have hdst := htarget.staging
  refine .append (.append (.append (.append (Code.straight_inRegister hsetup hdst)
    (Code.straight_operandOf hload)) ?_) (Code.straight_truncate hdst _))
    (Code.straight_copy hfinish htarget)
  cases op with
  | arith op => exact .quiet hdst
  | compare cond =>
    have hcmp : (Instr.cmp target.stagingRegister src).Quiet := trivial
    exact .append (.quiet hcmp) (.quiet hdst)

theorem UnOp.straight_code {op : UnOp} {operand : Reservation}
    (h : op.code target operand = .ok code) (htarget : target.Volatile) :
    Straight calls target.Occupies code := by
  rw [UnOp.code_eq] at h
  obtain ⟨⟨load, src⟩, hload, h₁⟩ := StepM.outcome_bind_eq_ok.mp h
  obtain ⟨compute, hcompute, h₂⟩ := StepM.outcome_bind_eq_ok.mp h₁
  obtain ⟨finish, hfinish, h₃⟩ := StepM.outcome_bind_eq_ok.mp h₂
  cases h₃
  have hdst := htarget.staging
  refine .append (.append (Code.straight_operandOf hload) ?_) (Code.straight_copy hfinish htarget)
  cases op with
  | neg =>
    cases hcompute
    exact .append (.quiet hdst) (Code.straight_truncate hdst _)
  | bitNot =>
    cases hcompute
    exact .append (.quiet hdst) (Code.straight_truncate hdst _)
  | not =>
    cases hcompute
    have hcmp : (Instr.cmpImm src 0).Quiet := trivial
    exact .append (.quiet hcmp) (.quiet hdst)
  | addrOf => cases hcompute
  | deref =>
    simp only [UnOp.compute] at hcompute
    split at hcompute <;> cases hcompute
    exact .quiet hdst

end ArmBackend
