import ArmBackend.Assembly.Operation
import ArmBackend.Builtin
import ArmBackend.FrameLayout
import ArmBackend.Proofs.Machine.Straight
import ArmBackend.StaticData

/-!
# References to labels

The labels that instructions name: targets of branches, callees, and static data. Code that moves values
and computes with them names none.
-/

namespace ArmBackend

inductive Reference where
  | branch (target : Label)
  | call (callee : Label)
  /-- The page of a datum, or its offset in the page. -/
  | datum (label : Label)
deriving DecidableEq

def Instr.reference? : Instr → Option Reference
  | .b label | .bCond _ label | .cbnz _ label => some (.branch label)
  | .bl label => some (.call label)
  | .adrp _ label | .addPageOffset _ _ label => some (.datum label)
  | _ => none

namespace Code

def references (code : Code) : List Reference :=
  code.filterMap fun
    | .instr instr => instr.reference?
    | _ => none

@[simp] theorem references_nil : references [] = [] := rfl

@[simp] theorem references_label (label : Label) (code : Code) :
    references (.label label :: code) = references code := rfl

@[simp] theorem references_directive (directive : Directive) (code : Code) :
    references (.directive directive :: code) = references code := rfl

@[simp] theorem references_instr (instr : Instr) (code : Code) :
    references (.instr instr :: code) = instr.reference?.toList ++ references code := by
  simp only [references, List.filterMap_cons]
  cases instr.reference? <;> rfl

@[simp] theorem references_append (a b : Code) : references (a ++ b) = references a ++ references b :=
  List.filterMap_append

@[simp] theorem references_flatten (codes : List Code) :
    references codes.flatten = codes.flatMap references := by
  induction codes with
  | nil => rfl
  | cons code codes ih => simp [ih]

@[simp] theorem references_ofInstrs (instrs : List Instr) :
    references (ofInstrs instrs) = instrs.filterMap Instr.reference? := by
  simp only [references, ofInstrs, List.filterMap_map]
  rfl

/-! ## Code without references -/

variable {code : Code} {dst src : Register} {source target res : Reservation}

@[simp] theorem references_move : references (move dst src) = [] := by
  rw [move]
  split <;> rfl

@[simp] theorem references_constant (bits : Word) : references (constant dst bits) = [] := by
  rw [constant, references_ofInstrs, List.filterMap_cons_none rfl, List.filterMap_eq_nil_iff]
  intro instr hinstr
  obtain ⟨shift, -, hshift⟩ := List.mem_filterMap.mp hinstr
  split at hshift <;> cases hshift
  rfl

@[simp] theorem references_frameAddress (offset : Int) : references (frameAddress dst offset) = [] := by
  simp only [frameAddress]
  split
  · rfl
  · simp [Instr.reference?]

@[simp] theorem references_slotAddress (offset : Int) : references (slotAddress dst offset).1 = [] := by
  rw [slotAddress]
  split
  · rfl
  · exact references_frameAddress offset

@[simp] theorem references_loadSlot (offset : Int) (ty : Ty) :
    references (loadSlot dst offset ty) = [] := by
  simp [loadSlot, Instr.reference?]

@[simp] theorem references_storeSlot (offset : Int) (ty : Ty) :
    references (storeSlot src offset ty) = [] := by
  simp [storeSlot, Instr.reference?]

@[simp] theorem references_truncate (ty : Ty) : references (truncate ty dst) = [] := by
  rw [truncate]
  split <;> rfl

theorem references_copy (h : copy source target = .ok code) : references code = [] := by
  rw [copy] at h
  split at h
  · cases h
    rfl
  · split at h <;> cases h <;> simp

theorem references_putConstant {bits : Word} (h : putConstant target bits = .ok code) :
    references code = [] := by
  rw [putConstant] at h
  split at h <;> cases h <;> simp

theorem references_operandOf {reg : Register} (h : operandOf res = .ok (code, reg)) :
    references code = [] := by
  rw [operandOf] at h
  split at h
  · cases h
    rfl
  · obtain ⟨copyCode, hcopy, h₁⟩ := StepM.outcome_bind_eq_ok.mp h
    cases h₁
    exact references_copy hcopy

@[simp] theorem references_saveRegs (regs : List Register) : references (saveRegs regs) = [] := by
  rw [saveRegs, references_ofInstrs]
  induction regs using pushes.induct with
  | case1 | case2 => rfl
  | case3 first second regs ih => exact ih

@[simp] theorem references_restoreRegs (regs : List Register) :
    references (restoreRegs regs) = [] := by
  rw [restoreRegs, references_ofInstrs]
  induction regs using pops.induct with
  | case1 | case2 => rfl
  | case3 first second regs ih => rw [pops, List.filterMap_append, ih]; rfl

@[simp] theorem references_adjustStack (change : StackChange) (size : Nat) :
    references (adjustStack change size) = [] := by
  simp only [adjustStack]
  split
  · cases change <;> rfl
  · split <;> cases change <;> simp [Instr.reference?]

theorem Straight.branch_not_mem {calls : Prop} {writes : Int → Ty → Prop} (h : Straight calls writes code)
    (label : Label) : .branch label ∉ code.references := by
  induction h with
  | nil => exact List.not_mem_nil
  | @quiet instr h => cases instr <;> first | exact h.elim | simp [Instr.reference?]
  | store src h => simp
  | call label hcalls hlive => simp [Instr.reference?]
  | trap imm => simp [Instr.reference?]
  | append _ _ iha ihb => simpa using ⟨iha, ihb⟩

end Code

/-! ## Operators, layouts and helpers -/

theorem BinOp.references_code {op : BinOp} {target lhs rhs : Reservation} {code : Code}
    (h : op.code target lhs rhs = .ok code) : code.references = [] := by
  obtain ⟨setup, hsetup, h₁⟩ := StepM.outcome_bind_eq_ok.mp h
  obtain ⟨⟨load, src⟩, hload, h₂⟩ := StepM.outcome_bind_eq_ok.mp h₁
  obtain ⟨finish, hfinish, h₃⟩ := StepM.outcome_bind_eq_ok.mp h₂
  cases h₃
  cases op <;> simp [Code.references_copy hsetup, Code.references_operandOf hload,
    Code.references_copy hfinish, Instr.reference?]

theorem UnOp.references_code {op : UnOp} {target operand : Reservation} {code : Code}
    (h : op.code target operand = .ok code) : code.references = [] := by
  rw [UnOp.code_eq] at h
  obtain ⟨⟨load, src⟩, hload, h₁⟩ := StepM.outcome_bind_eq_ok.mp h
  obtain ⟨compute, hcompute, h₂⟩ := StepM.outcome_bind_eq_ok.mp h₁
  obtain ⟨finish, hfinish, h₃⟩ := StepM.outcome_bind_eq_ok.mp h₂
  cases h₃
  have hnone : compute.references = [] := by
    cases op with
    | deref =>
      simp only [UnOp.compute] at hcompute
      split at hcompute <;> cases hcompute
      rfl
    | addrOf => cases hcompute
    | _ =>
      cases hcompute
      simp [Instr.reference?]
  simp [Code.references_operandOf hload, hnone, Code.references_copy hfinish]

namespace FrameLayout

variable (layout : FrameLayout)

@[simp] theorem references_prologue : layout.prologue.references = [] := by
  rw [prologue]
  split <;> split <;> simp [Instr.reference?]

@[simp] theorem references_epilogue : layout.epilogue.references = [] := by
  rw [epilogue]
  split <;> split <;> simp [Instr.reference?]

end FrameLayout

@[simp] theorem Options.references_functionHeader (options : Options) (name : String) :
    (options.functionHeader name).references = [] := by
  simp only [functionHeader]
  split <;> rfl

@[simp] theorem StaticData.references_code (table : StaticData) : table.code.references = [] := by
  rw [StaticData.code, Code.references_directive, Code.references, List.filterMap_eq_nil_iff]
  intro line hline
  obtain ⟨datum, -, hline⟩ := List.mem_flatMap.mp hline
  cases line with
  | instr instr => simp [Datum.code, DatumKind.alignment] at hline
  | directive | label => rfl

end ArmBackend
