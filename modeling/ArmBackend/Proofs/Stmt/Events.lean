import ArmBackend.Proofs.Expr.Events
import ArmBackend.Proofs.Stmt.Links

/-!
# References that lowering a statement makes

As for expressions: lowering refers to the functions that the statement calls, in the order of the text, and
to a first part of them where it fails.
-/

namespace ArmBackend

open Event (refers)
open Session (Performs)

variable {target : Reservation} {expr : Expr} {signature : Signature}

/-! ## Simple statements -/

namespace Lower

theorem value_refers : Performs (refers expr.callees) (value target expr) :=
  .quiet_bind (.lift _) fun _ => expr.lower_refers target

theorem condition_refers : Performs (refers expr.callees) (condition expr) :=
  .bind_quiet value_refers fun _ => .pure _

theorem init_refers {ty : Ty} {name : String} : Performs (refers expr.callees) (init ty name expr) :=
  .quiet_bind (.lift _) fun _ => .quiet_bind (.onFrame _) fun _ => value_refers

theorem assign_refers {name : String} : Performs (refers expr.callees) (assign name expr) :=
  .quiet_bind (.onFrame _) fun _ => .quiet_bind (.onFrame _) fun _ => .bind_quiet value_refers fun _ =>
    .quiet_bind (.lift _) fun _ => .quiet_bind (.onFrame _) fun _ => .pure _

theorem store_refers {pointer : Expr} :
    Performs (refers (pointer.callees ++ expr.callees)) (store pointer expr) :=
  .quiet_bind (.lift _) fun _ => .quiet_bind (.lift _) fun _ => .quiet_bind (.onFrame _) fun _ =>
  .bind_refers value_refers fun _ => .quiet_bind (.onFrame _) fun _ => .bind_quiet value_refers fun _ =>
  .quiet_bind (.lift _) fun _ => .quiet_bind (.lift _) fun _ => .quiet_bind (.onFrame _) fun _ =>
  .quiet_bind (.onFrame _) fun _ => .pure _

theorem returned_refers {ty : Ty} : Performs (refers expr.callees) (returned ty expr) := by
  rw [returned]
  split
  · exact .quiet_bind (.onFrame _) fun temp => .bind_quiet (expr.lower_refers temp) fun _ =>
      .quiet_bind (.lift _) fun _ => .quiet_bind (.onFrame _) fun _ => .pure _
  · exact expr.lower_refers _

theorem ret_refers : Performs (refers expr.callees) (ret signature expr) := by
  rw [ret]
  cases hempty : expr.isEmpty <;> cases signature.returnTy.isVoid
  · exact .bind_quiet returned_refers fun _ => .pure _
  · exact .throw _
  · exact .throw _
  · have hnone : expr.callees = [] := by cases expr <;> first | rfl | cases hempty
    rw [hnone]
    exact .pure _

theorem leave_refers {exit : LoopExit} {label : Nat → Label} : Performs [] (leave exit label) := by
  refine .quiet_bind (.onFrame _) fun loop? => ?_
  cases loop? with
  | some id => exact .pure _
  | none => exact .throw _

end Lower

/-! ## All statements -/

namespace Stmt

theorem lowerBlock_refers_of {stmts : List Stmt}
    (h : ∀ stmt ∈ stmts, Performs (refers stmt.callees) (stmt.lower signature)) :
    Performs (refers (blockCallees stmts)) (lowerBlock signature stmts) := by
  induction stmts with
  | nil => exact .pure _
  | cons stmt stmts ih =>
    obtain ⟨hstmt, hrest⟩ := List.forall_mem_cons.mp h
    exact .bind_refers hstmt fun _ => .bind_quiet (ih hrest) fun _ => .pure _

theorem lower_refers (stmt : Stmt) : Performs (refers stmt.callees) (stmt.lower signature) := by
  induction stmt using Stmt.induct with
  | declare ty name => exact .quiet_bind (.onFrame _) fun _ => .pure _
  | init ty name value => exact Lower.init_refers
  | assign name value => exact Lower.assign_refers
  | store pointer value => exact Lower.store_refers
  | ret value => exact Lower.ret_refers
  | call callee args =>
    simp only [lower, Expr.operands_eq_map]
    exact Lower.call_refers fun arg _ => arg.operand_refers
  | ifElse cond thenBlock elseBlock ihThen ihElse =>
    rw [callees, List.append_assoc]
    exact .quiet_bind .freshIf fun _ => .bind_refers Lower.condition_refers fun _ =>
      .bind_refers (lowerBlock_refers_of ihThen) fun _ =>
      .bind_quiet (lowerBlock_refers_of ihElse) fun _ => .pure _
  | loop cond body ih =>
    exact .quiet_bind .freshLoop fun _ => .bind_refers Lower.condition_refers fun _ =>
      .bind_quiet (.inLoop (lowerBlock_refers_of ih)) fun _ => .pure _
  | breakLoop => exact Lower.leave_refers
  | continueLoop => exact Lower.leave_refers

theorem lowerBlock_refers (stmts : List Stmt) :
    Performs (refers (blockCallees stmts)) (lowerBlock signature stmts) :=
  lowerBlock_refers_of fun stmt _ => stmt.lower_refers

end Stmt

end ArmBackend
