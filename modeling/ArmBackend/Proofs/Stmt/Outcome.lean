import ArmBackend.Proofs.Expr.Outcome
import ArmBackend.Proofs.Stmt.Shape
import ArmBackend.Stmt.Lower

/-!
# Lowering statements, whatever the outcome

Also a statement that fails leaves the loops that it has entered, and the frames below the innermost one.
-/

namespace ArmBackend

open CompileError (Sealed External)
open Session (onFrame outline Tight Still)

variable {target : Reservation} {expr : Expr} {signature : Signature}

namespace Session.Tight

variable {α β : Type} {step : CompileM α} {next : α → CompileM β}

theorem pure (a : α) : Tight (pure a : CompileM α) := fun _ => .pure a

theorem bind (h : Tight step) (hnext : ∀ a, Tight (next a)) : Tight (step >>= next) :=
  fun session => .bind (h session) fun a t _ => hnext a t

theorem inLoop {id : Nat} (h : Tight step) : Tight (inLoop id step) :=
  fun _ => inLoop_upholds (fun _ => rfl) fun _ => h _

end Session.Tight

theorem Session.freshIf_tight : Tight freshIf :=
  fun _ => .get_bind (.bind (.set rfl) fun _ _ _ => .pure _)

theorem Session.freshLoop_tight : Tight freshLoop :=
  fun _ => .get_bind (.bind (.set rfl) fun _ _ _ => .pure _)

theorem Session.addVariable_still (ty : Ty) (name : String) :
    Still (onFrame (Frame.addVariable ty name)) := .onFrame fun _ => Frame.addVariable_upholds

theorem Session.reserveVariable_still (ty : Ty) : Still (onFrame (Frame.reserveVariable ty)) :=
  .onFrame fun _ => Frame.reserveVariable_upholds

theorem Session.releaseVariable_still : Still (onFrame Frame.releaseVariable) :=
  .onFrame fun _ => Frame.releaseVariable_upholds

/-! ## Checks -/

theorem Check.value_allows : Allows External (Check.value expr) := .ite (.error nofun) (.ok _)

theorem Check.arrayTarget_allows {ty : Ty} : Allows External (Check.arrayTarget ty expr) :=
  .ite (.error nofun) (.ok _)

theorem Check.storedValue_allows : Allows External (Check.storedValue expr) :=
  .ite (.error nofun) (.ok _)

theorem Lower.storedTy_allows {ty : Ty} : Allows External (Lower.storedTy ty) := by
  rw [Lower.storedTy]
  split
  · exact .ite (.ok _) (.error nofun)
  · exact .error nofun

/-! ## Simple statements -/

namespace Lower

theorem value_still : Still (value target expr) :=
  .bind (.lift_external Check.value_allows) fun _ => expr.lower_still target

theorem condition_still : Still (condition expr) := .bind value_still fun _ => .pure _

theorem init_still {ty : Ty} {name : String} : Still (init ty name expr) :=
  .bind (.lift_external Check.arrayTarget_allows) fun _ =>
    .bind (Session.addVariable_still ty name) fun _ => value_still

theorem assign_still {name : String} : Still (assign name expr) :=
  .bind (.resolve name) fun slot => .bind (.reserveTemp slot.ty) fun _ => .bind value_still fun _ =>
    .bind (.lift Code.copy_allows) fun _ => .bind .releaseTemp fun _ => .pure _

theorem store_still {pointer : Expr} : Still (store pointer expr) :=
  .bind (.lift_external storedTy_allows) fun pointee =>
  .bind (.lift_external Check.storedValue_allows) fun _ =>
  .bind (Session.reserveVariable_still pointer.ty) fun _ => .bind value_still fun _ =>
  .bind (Session.reserveVariable_still pointee) fun _ => .bind value_still fun _ =>
  .bind (.lift Code.copy_allows) fun _ => .bind (.lift Code.copy_allows) fun _ =>
  .bind Session.releaseVariable_still fun _ => .bind Session.releaseVariable_still fun _ => .pure _

theorem returned_still {ty : Ty} : Still (returned ty expr) := by
  rw [returned]
  split
  · exact .bind (.reserveTemp ty) fun temp => .bind (expr.lower_still temp) fun _ =>
      .bind (.lift Code.copy_allows) fun _ => .bind .releaseTemp fun _ => .pure _
  · exact expr.lower_still _

theorem ret_still : Still (ret signature expr) := by
  rw [ret]
  cases expr.isEmpty <;> cases signature.returnTy.isVoid
  · exact .bind returned_still fun _ => .pure _
  · exact .throw rfl
  · exact .throw rfl
  · exact .pure _

theorem leave_still {exit : LoopExit} {label : Nat → Label} : Still (leave exit label) := by
  refine .bind (.onFrame fun f => ⟨rfl, .ok f.currentLoop?⟩) fun loop? => ?_
  cases loop? with
  | some id => exact .pure _
  | none => exact .throw rfl

end Lower

/-! ## All statements -/

namespace Stmt

theorem lowerBlock_tight_of {stmts : List Stmt}
    (h : ∀ stmt ∈ stmts, Tight (stmt.lower signature)) : Tight (lowerBlock signature stmts) := by
  induction stmts with
  | nil => exact .pure _
  | cons stmt stmts ih =>
    have hrest := ih fun other hother => h other (List.mem_cons_of_mem _ hother)
    exact .bind (h stmt List.mem_cons_self) fun _ => .bind hrest fun _ => .pure _

theorem lower_tight (stmt : Stmt) : Tight (stmt.lower signature) := by
  induction stmt using Stmt.induct with
  | declare ty name => exact .bind (Session.addVariable_still ty name).tight fun _ => .pure _
  | init ty name value => exact Lower.init_still.tight
  | assign name value => exact Lower.assign_still.tight
  | store pointer value => exact Lower.store_still.tight
  | ret value => exact Lower.ret_still.tight
  | call callee args =>
    exact (Lower.call_still (Expr.forall_operands.mpr fun arg _ => arg.operand_still)).tight
  | ifElse cond thenBlock elseBlock ihThen ihElse =>
    exact .bind Session.freshIf_tight fun _ => .bind Lower.condition_still.tight fun _ =>
      .bind (lowerBlock_tight_of ihThen) fun _ => .bind (lowerBlock_tight_of ihElse) fun _ => .pure _
  | loop cond body ih =>
    exact .bind Session.freshLoop_tight fun _ => .bind Lower.condition_still.tight fun _ =>
      .bind (.inLoop (lowerBlock_tight_of ih)) fun _ => .pure _
  | breakLoop => exact Lower.leave_still.tight
  | continueLoop => exact Lower.leave_still.tight

theorem lowerBlock_tight (stmts : List Stmt) : Tight (lowerBlock signature stmts) :=
  lowerBlock_tight_of fun stmt _ => stmt.lower_tight

end Stmt

end ArmBackend
