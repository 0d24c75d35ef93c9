import ArmBackend.Proofs.Expr.Links
import ArmBackend.Proofs.Stmt.Inversion
import ArmBackend.Proofs.Stmt.Shape

/-!
# What the code of a statement refers to

As for expressions: the code calls the functions that the statement calls, and addresses texts that have
been interned.
-/

namespace ArmBackend

open Session (Links)

/-! ## Callees -/

namespace Stmt

mutual

def callees : Stmt → List String
  | .call callee args => (if callee = trapCallee then [] else [callee]) ++ Expr.allCallees args
  | .init _ _ value | .assign _ value | .ret value => value.callees
  | .store pointer value => pointer.callees ++ value.callees
  | .ifElse cond thenBlock elseBlock => cond.callees ++ blockCallees thenBlock ++ blockCallees elseBlock
  | .loop cond body => cond.callees ++ blockCallees body
  | .declare .. | .breakLoop | .continueLoop => []

def blockCallees : List Stmt → List String
  | [] => []
  | stmt :: stmts => stmt.callees ++ blockCallees stmts

end

end Stmt

variable {σ τ : Session} {code : Code}

theorem Session.freshIf_links {id : Nat} (h : freshIf.run σ = (.ok id, τ)) : Links [] [] σ τ := by
  obtain ⟨-, labels, rfl⟩ := freshIf_ok h
  exact .quiet rfl rfl rfl rfl rfl

theorem Session.freshLoop_links {id : Nat} (h : freshLoop.run σ = (.ok id, τ)) : Links [] [] σ τ := by
  obtain ⟨-, labels, rfl⟩ := freshLoop_ok h
  exact .quiet rfl rfl rfl rfl rfl

/-! ## Simple statements -/

namespace Lower

theorem condition_links {cond : Expr} (h : (condition cond).run σ = (.ok code, τ)) :
    Links cond.callees code.references σ τ := by
  obtain ⟨condCode, hcond, rfl⟩ := condition_ok h
  simpa [List.filterMap_cons, Instr.reference?] using cond.operand_links hcond

theorem init_links {ty : Ty} {name : String} {expr : Expr}
    (h : (init ty name expr).run σ = (.ok code, τ)) : Links expr.callees code.references σ τ := by
  obtain ⟨slot, σ₁, hslot, hvalue⟩ := init_ok h
  exact (Links.onFrame hslot).trans (expr.operand_links hvalue)

theorem assign_links {name : String} {expr : Expr} (h : (assign name expr).run σ = (.ok code, τ)) :
    Links expr.callees code.references σ τ := by
  obtain ⟨slot, temp, exprCode, copyCode, σ₁, σ₂, σ₃, hslot, htemp, hvalue, hcopy, hrelease, rfl⟩ :=
    assign_ok h
  have hall := (((Links.onFrame hslot).trans (.onFrame htemp)).trans (expr.operand_links hvalue)).trans
    (.onFrame hrelease)
  simpa [Code.references_copy hcopy] using hall

theorem store_links {pointer expr : Expr} (h : (store pointer expr).run σ = (.ok code, τ)) :
    Links (pointer.callees ++ expr.callees) code.references σ τ := by
  obtain ⟨pointee, pointerSlot, pointerCode, valueSlot, valueCode, loadPointer, loadValue, σ₁, σ₂, σ₃, σ₄,
    σ₅, -, hpointer, hpointerCode, hvalue, hvalueCode, hcopy, hcopy', hrelease, hrelease', rfl⟩ := store_ok h
  have hoperands := (((Links.onFrame hpointer).trans (pointer.operand_links hpointerCode)).trans
    (.onFrame hvalue)).trans (expr.operand_links hvalueCode)
  have hall := (hoperands.trans (.onFrame hrelease)).trans (.onFrame hrelease')
  simpa [Code.references_copy hcopy, Code.references_copy hcopy', Code.storeThrough, List.filterMap_cons,
    Instr.reference?] using hall

theorem ret_links {signature : Signature} {expr : Expr} (h : (ret signature expr).run σ = (.ok code, τ)) :
    Links expr.callees code.references σ τ := by
  obtain ⟨valueCode, rfl, ⟨hempty, rfl, rfl⟩ | ⟨-, hreturned⟩⟩ := ret_ok h
  · have hnone : expr.callees = [] := by cases expr <;> first | rfl | cases hempty
    rw [hnone]
    exact .branch _ _
  · have hvalue : Links expr.callees valueCode.references σ τ := by
      rcases returned_ok hreturned with
        ⟨-, temp, exprCode, copyCode, σ₁, σ₂, htemp, hexpr, hcopy, hrelease, rfl⟩ | ⟨-, hexpr⟩
      · have hall := ((Links.onFrame htemp).trans (expr.operand_links hexpr)).trans (.onFrame hrelease)
        simpa [Code.references_copy hcopy] using hall
      · exact expr.operand_links hexpr
    rw [Code.references_append, ← List.append_nil expr.callees]
    exact hvalue.trans (.branch _ _)

theorem leave_links {exit : LoopExit} {label : Nat → Label}
    (h : (leave exit label).run σ = (.ok code, τ)) : Links [] code.references σ τ := by
  obtain ⟨_, _, _, -, -, rfl, rfl⟩ := leave_ok h
  exact .branch _ _

end Lower

/-! ## All statements -/

namespace Stmt

variable {signature : Signature}

theorem lowerBlock_links_of {stmts : List Stmt}
    (hstmts : ∀ stmt ∈ stmts, ∀ {σ τ code}, (stmt.lower signature).run σ = (.ok code, τ) →
      Links stmt.callees code.references σ τ)
    (h : (lowerBlock signature stmts).run σ = (.ok code, τ)) :
    Links (blockCallees stmts) code.references σ τ := by
  induction stmts generalizing σ code with
  | nil =>
    cases h
    exact .refl _
  | cons stmt stmts ih =>
    obtain ⟨stmtCode, restCode, σ₁, hstmt, hrest, rfl⟩ := block_cons_ok h
    rw [Code.references_append]
    exact (hstmts stmt List.mem_cons_self hstmt).trans
      (ih (fun other hother => hstmts other (List.mem_cons_of_mem _ hother)) hrest)

theorem lower_links (stmt : Stmt) (h : (stmt.lower signature).run σ = (.ok code, τ)) :
    Links stmt.callees code.references σ τ := by
  induction stmt using Stmt.induct generalizing σ code τ with
  | declare ty name =>
    obtain ⟨rfl, slot, hslot⟩ := declare_ok h
    exact .onFrame hslot
  | init ty name value => exact Lower.init_links h
  | assign name value => exact Lower.assign_links h
  | store pointer value => exact Lower.store_links h
  | ret value => exact Lower.ret_links h
  | call callee args =>
    simp only [lower, Expr.operands_eq_map] at h
    exact Lower.call_links (fun expr _ => expr.operand_links) h
  | ifElse cond thenBlock elseBlock ihthen ihelse =>
    obtain ⟨id, condCode, thenCode, elseCode, σ₁, σ₂, σ₃, hid, hcond, hthen, helse, rfl⟩ := ifElse_ok h
    have hskip := ((Session.freshIf_links hid).trans (Lower.condition_links hcond)).trans
      (.branch σ₂ (.ifFalse id))
    have hall := ((hskip.trans (lowerBlock_links_of ihthen hthen)).trans (.branch σ₃ (.ifExit id))).trans
      (lowerBlock_links_of ihelse helse)
    simpa [callees, Instr.reference?] using hall
  | loop cond body ih =>
    obtain ⟨id, condCode, bodyCode, σ₁, σ₂, hid, hcond, hinLoop, rfl⟩ := loop_ok h
    obtain ⟨σ₃, σ₄, hpush, hbody, hpop⟩ := Session.inLoop_ok hinLoop
    have hskip := ((Session.freshLoop_links hid).trans (Lower.condition_links hcond)).trans
      (.branch σ₂ (.loopExit id))
    have hall := ((hskip.trans (.onFrame hpush)).trans (lowerBlock_links_of ih hbody)).trans
      ((Links.onFrame hpop).trans (.branch τ (.loopCond id)))
    simpa [callees, Instr.reference?] using hall
  | breakLoop => exact Lower.leave_links h
  | continueLoop => exact Lower.leave_links h

theorem lowerBlock_links {stmts : List Stmt} (h : (lowerBlock signature stmts).run σ = (.ok code, τ)) :
    Links (blockCallees stmts) code.references σ τ :=
  lowerBlock_links_of (fun stmt _ _ _ _ => stmt.lower_links) h

end Stmt

end ArmBackend
