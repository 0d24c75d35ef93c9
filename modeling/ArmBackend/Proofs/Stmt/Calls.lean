import ArmBackend.Proofs.Expr.Calls
import ArmBackend.Proofs.Stmt.Inversion
import ArmBackend.Proofs.Stmt.Shape

/-!
# Which statements call out

As for expressions. A returned value that calls out passes through a temporary, and any other one is
evaluated straight into the result register.
-/

namespace ArmBackend

variable {σ τ : Session} {code : Code}

/-! ## Simple statements -/

namespace Lower

theorem condition_callsOut {cond : Expr} (h : (condition cond).run σ = (.ok code, τ)) :
    code.callsOut = cond.containsCalls := by
  obtain ⟨condCode, hcond, rfl⟩ := condition_ok h
  have hcalls : condCode.callsOut = cond.containsCalls := cond.operand_exact hcond
  simp [hcalls, Code.ofInstrs, Line.mark, Mark.callsOut]

theorem init_callsOut {ty : Ty} {name : String} {expr : Expr}
    (h : (init ty name expr).run σ = (.ok code, τ)) : code.callsOut = expr.containsCalls := by
  obtain ⟨slot, σ₁, -, hvalue⟩ := init_ok h
  exact expr.operand_exact hvalue

theorem assign_callsOut {name : String} {expr : Expr} (h : (assign name expr).run σ = (.ok code, τ)) :
    code.callsOut = expr.containsCalls := by
  obtain ⟨slot, temp, exprCode, copyCode, σ₁, σ₂, σ₃, -, -, hvalue, hcopy, -, rfl⟩ := assign_ok h
  have hcalls : exprCode.callsOut = expr.containsCalls := expr.operand_exact hvalue
  simp [hcalls, (Code.silent_copy hcopy).callsOut]

theorem store_callsOut {pointer expr : Expr} (h : (store pointer expr).run σ = (.ok code, τ)) :
    code.callsOut = (pointer.containsCalls || expr.containsCalls) := by
  obtain ⟨pointee, pointerSlot, pointerCode, valueSlot, valueCode, loadPointer, loadValue, σ₁, σ₂, σ₃, σ₄,
    σ₅, -, -, hpointerCode, -, hvalueCode, hcopy, hcopy', -, -, rfl⟩ := store_ok h
  have hcalls : pointerCode.callsOut = pointer.containsCalls := pointer.operand_exact hpointerCode
  have hcalls' : valueCode.callsOut = expr.containsCalls := expr.operand_exact hvalueCode
  simp [hcalls, hcalls', (Code.silent_copy hcopy).callsOut, (Code.silent_copy hcopy').callsOut,
    (Code.silent_storeThrough _ _).callsOut]

theorem returned_staged {ty : Ty} {expr : Expr} (h : (returned ty expr).run σ = (.ok code, τ)) :
    Staged ([expr.operand].filter Operand.calls) (plain [expr.operand] [.result]) code := by
  rcases returned_ok h with
    ⟨hcalls, temp, exprCode, copyCode, σ₁, σ₂, htemp, hexpr, hcopy, -, rfl⟩ | ⟨hcalls, hexpr⟩
  · have hshielding : Shielding [expr.operand] exprCode :=
      .singleton (Session.reserveTemp_temporary htemp) hexpr
    have hstaged := Staged.intro hshielding .nil (Code.silent_copy hcopy).callsOut
    rw [List.append_nil] at hstaged
    simpa [plain, Expr.operand, hcalls] using hstaged
  · have hquiet : code.callsOut = expr.containsCalls := expr.operand_exact hexpr
    have hplacing : Placing [(expr.operand, .result)] code := .singleton hexpr (hquiet.trans hcalls)
    have hstaged := Staged.intro .nil hplacing Code.callsOut_nil
    rw [List.nil_append, List.append_nil] at hstaged
    simpa [plain, Expr.operand, hcalls] using hstaged

theorem ret_staged {signature : Signature} {expr : Expr}
    (h : (ret signature expr).run σ = (.ok code, τ)) :
    Staged ([expr.operand].filter Operand.calls) (plain [expr.operand] [.result]) code := by
  obtain ⟨valueCode, rfl, hvalue⟩ := ret_ok h
  refine .quiet ?_ rfl
  obtain ⟨hempty, rfl, -⟩ | ⟨-, hreturned⟩ := hvalue
  · -- Nothing is evaluated for a bare return, which is what lowering it as an expression does.
    cases expr with
    | empty ty =>
      have hlowered : ((Expr.empty ty).operand.lower (.ofReg ty .result)).run σ = (.ok [], σ) := rfl
      have hplacing : Placing [((Expr.empty ty).operand, .result)] [] := .singleton hlowered rfl
      exact .intro .nil hplacing Code.callsOut_nil
    | _ => cases hempty
  · exact returned_staged hreturned

theorem ret_callsOut {signature : Signature} {expr : Expr}
    (h : (ret signature expr).run σ = (.ok code, τ)) : code.callsOut = expr.containsCalls := by
  have hexact : ∀ operand ∈ [expr.operand].filter Operand.calls, operand.Exact := fun operand hmem =>
    List.mem_singleton.mp (List.mem_of_mem_filter hmem) ▸ expr.operand_exact
  rw [(ret_staged h).callsOut hexact]
  cases hcalls : expr.containsCalls <;> simp [Expr.operand, hcalls]

theorem leave_callsOut {exit : LoopExit} {label : Nat → Label}
    (h : (leave exit label).run σ = (.ok code, τ)) : code.callsOut = false := by
  obtain ⟨_, _, _, -, -, -, rfl⟩ := leave_ok h
  rfl

end Lower

/-! ## All statements -/

namespace Stmt

variable {signature : Signature}

theorem lowerBlock_callsOut_of {stmts : List Stmt}
    (hstmts : ∀ stmt ∈ stmts, ∀ {σ τ code}, (stmt.lower signature).run σ = (.ok code, τ) →
      Code.callsOut code = stmt.containsCalls)
    (h : (lowerBlock signature stmts).run σ = (.ok code, τ)) :
    code.callsOut = blockContainsCalls stmts := by
  induction stmts generalizing σ code with
  | nil =>
    cases h
    rfl
  | cons stmt stmts ih =>
    obtain ⟨hstmt, hrest⟩ := List.forall_mem_cons.mp hstmts
    obtain ⟨stmtCode, restCode, σ₁, hstmtCode, hrestCode, rfl⟩ := block_cons_ok h
    rw [Code.callsOut_append, hstmt hstmtCode, ih hrest hrestCode, blockContainsCalls]

theorem lower_callsOut (stmt : Stmt) (h : (stmt.lower signature).run σ = (.ok code, τ)) :
    code.callsOut = stmt.containsCalls := by
  induction stmt using Stmt.induct generalizing σ code τ with
  | declare ty name =>
    obtain ⟨rfl, -⟩ := declare_ok h
    rfl
  | init ty name value => exact Lower.init_callsOut h
  | assign name value => exact Lower.assign_callsOut h
  | store pointer value => exact Lower.store_callsOut h
  | ret value => exact Lower.ret_callsOut h
  | call callee args =>
    simp only [lower] at h
    obtain ⟨regs, -, hdispatched⟩ :=
      Lower.call_dispatched (Expr.forall_operands.mpr fun expr _ => expr.operand_exact) h
    exact hdispatched.callsOut
  | ifElse cond thenBlock elseBlock ihthen ihelse =>
    obtain ⟨id, condCode, thenCode, elseCode, σ₁, σ₂, σ₃, -, hcond, hthen, helse, rfl⟩ := ifElse_ok h
    simp [Lower.condition_callsOut hcond, lowerBlock_callsOut_of ihthen hthen,
      lowerBlock_callsOut_of ihelse helse, containsCalls, Line.mark, Label.numbered, Mark.callsOut,
      Bool.or_assoc]
  | loop cond body ih =>
    obtain ⟨id, condCode, bodyCode, σ₁, σ₂, -, hcond, hinLoop, rfl⟩ := loop_ok h
    obtain ⟨σ₃, σ₄, -, hbody, -⟩ := Session.inLoop_ok hinLoop
    simp [Lower.condition_callsOut hcond, lowerBlock_callsOut_of ih hbody, containsCalls, Line.mark,
      Label.numbered, Mark.callsOut]
  | breakLoop => exact Lower.leave_callsOut h
  | continueLoop => exact Lower.leave_callsOut h

theorem lowerBlock_callsOut {stmts : List Stmt} (h : (lowerBlock signature stmts).run σ = (.ok code, τ)) :
    code.callsOut = blockContainsCalls stmts :=
  lowerBlock_callsOut_of (fun stmt _ _ _ _ => stmt.lower_callsOut) h

end Stmt

end ArmBackend
