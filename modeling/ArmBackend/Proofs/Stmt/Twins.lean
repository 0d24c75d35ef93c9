import ArmBackend.Proofs.Expr.Twins
import ArmBackend.Proofs.Stmt.Shape
import ArmBackend.Stmt.Lower

/-!
# Statements in two runs

Two runs number the branches and loops of a statement from different ids, and leave a loop by the label that
each of them has given to it.
-/

namespace ArmBackend

open Relabelling (Turns)
open Session (Tandem Uniform onFrame)

variable {a b : Session} {r : Relabelling} {target : Reservation} {expr : Expr} {signature : Signature}

/-! ## Simple statements -/

namespace Lower

theorem value_uniform : Uniform a b r (value target expr) := .check fun _ _ => expr.lower_uniform target

theorem condition_uniform : Uniform a b r (condition expr) := by
  have hcompare : Code.Inert (Code.ofInstrs [.cmpImm .staging 0]) := ⟨rfl, rfl⟩
  exact .bind value_uniform fun _ _ _ _ hcode => .pure (.append hcode hcompare.turns)

theorem init_uniform {ty : Ty} {name : String} : Uniform a b r (init ty name expr) :=
  .check fun _ _ => .onFrame (.addVariable ty name) fun _ => value_uniform

theorem assign_uniform {name : String} : Uniform a b r (assign name expr) :=
  .onFrame (.resolve name) fun slot => .onFrame (.reserveTemp slot.ty) fun _ =>
  .bind value_uniform fun _ _ _ _ hcode => .check fun _ hcopy => .onFrame .releaseTemp fun _ =>
  .pure (.append hcode (Code.inert_copy hcopy).turns)

theorem store_uniform {pointer : Expr} : Uniform a b r (store pointer expr) := by
  refine .check fun pointee _ => .check fun _ _ =>
    .onFrame (.reserveVariable pointer.ty) fun _ => .bind value_uniform fun _ _ _ _ hpointer =>
    .onFrame (.reserveVariable pointee) fun _ => .bind value_uniform fun _ _ _ hlater hvalue =>
    .check fun _ hload => .check fun _ hload' =>
    .onFrame .releaseVariable fun _ => .onFrame .releaseVariable fun _ => .pure ?_
  have hstore : Code.Inert (Code.storeThrough .operand .staging pointee) := ⟨rfl, rfl⟩
  exact .append (.append (.append (.append (hpointer.later hlater) hvalue) (Code.inert_copy hload).turns)
    (Code.inert_copy hload').turns) hstore.turns

theorem returned_uniform {ty : Ty} : Uniform a b r (returned ty expr) := by
  rw [returned]
  split
  · exact .onFrame (.reserveTemp ty) fun temp => .bind (expr.lower_uniform temp) fun _ _ _ _ hcode =>
      .check fun _ hcopy => .onFrame .releaseTemp fun _ =>
      .pure (.append hcode (Code.inert_copy hcopy).turns)
  · exact expr.lower_uniform _

theorem ret_uniform : Uniform a b r (ret signature expr) := by
  have hbranch : ∀ {r : Relabelling}, r.Turns (Code.ofInstrs [.b (.returnOf signature.name)])
      (Code.ofInstrs [.b (.returnOf signature.name)]) := .branch rfl
  rw [ret]
  cases expr.isEmpty <;> cases signature.returnTy.isVoid
  · exact .bind returned_uniform fun _ _ _ _ hcode => .pure (.append hcode hbranch)
  · exact .throw _
  · exact .throw _
  · exact .pure (.append .nil hbranch)

theorem leave_uniform {exit : LoopExit} {label : Nat → Label}
    (hlabel : ∀ {r : Relabelling} {id id' : Nat}, Relabelling.shift r.loops id = some id' →
      r.label (label id) = some (label id')) : Uniform a b r (leave exit label) :=
  .currentLoop? (.throw _) fun _ _ hid => .pure (.branch (hlabel hid))

end Lower

/-! ## All statements -/

namespace Stmt

theorem lowerBlock_uniform_of {stmts : List Stmt}
    (h : ∀ stmt ∈ stmts, ∀ r, Uniform a b r (stmt.lower signature)) :
    Uniform a b r (lowerBlock signature stmts) := by
  induction stmts generalizing r with
  | nil => exact .pure .nil
  | cons stmt stmts ih =>
    obtain ⟨hstmt, hstmts⟩ := List.forall_mem_cons.mp h
    exact .bind (hstmt r) fun _ _ _ _ hcode => .bind (ih hstmts) fun _ _ _ hlater hrest =>
      .pure (.append (hcode.later hlater) hrest)

theorem lower_uniform (stmt : Stmt) : ∀ r, Uniform a b r (stmt.lower signature) := by
  induction stmt using Stmt.induct with
  | declare ty name => exact fun r => .onFrame (.addVariable ty name) fun _ => .pure .nil
  | init ty name value => exact fun r => Lower.init_uniform
  | assign name value => exact fun r => Lower.assign_uniform
  | store pointer value => exact fun r => Lower.store_uniform
  | ret value => exact fun r => Lower.ret_uniform
  | call callee args =>
    exact fun r => Lower.call_uniform (Expr.forall_operands.mpr fun arg _ => arg.operand_uniform)
  | ifElse cond thenBlock elseBlock ihThen ihElse =>
    refine fun r => .freshIf fun id id' hid => .bind Lower.condition_uniform fun r₁ _ _ h₁ hcond =>
      .bind (lowerBlock_uniform_of ihThen) fun r₂ _ _ h₂ hthen =>
      .bind (lowerBlock_uniform_of ihElse) fun r₃ _ _ h₃ helse => .pure ?_
    have hid : Relabelling.shift r₃.branches id = some id' := by
      rw [h₃.branches, h₂.branches, h₁.branches, hid]
    obtain ⟨htrue, hfalse, hexit⟩ := Relabelling.label_branch hid
    have hthenBranch := (Turns.branchIf .eq hfalse).append (.append (.label htrue) (hthen.later h₃))
    have helseBranch := (Turns.branch hexit).append (.append (.label hfalse) helse)
    exact .append (.append (.append (hcond.later (h₂.trans h₃)) hthenBranch) helseBranch) (.label hexit)
  | loop cond body ih =>
    refine fun r => .freshLoop fun id id' hid => .bind Lower.condition_uniform fun r₁ _ _ h₁ hcond => ?_
    have hid₁ : Relabelling.shift r₁.loops id = some id' := by rw [h₁.loops, hid]
    refine .bind (.inLoop hid₁ (lowerBlock_uniform_of ih)) fun r₂ _ _ h₂ hbody => .pure ?_
    have hid : Relabelling.shift r₂.loops id = some id' := by rw [h₂.loops, hid₁]
    obtain ⟨hcondLabel, hbodyLabel, hexit⟩ := Relabelling.label_loop hid
    have hiteration := (Turns.branchIf .eq hexit).append (.append (.label hbodyLabel) hbody)
    have hback := (Turns.branch hcondLabel).append (.label hexit)
    exact .append (.append (.append (.label hcondLabel) (hcond.later h₂)) hiteration) hback
  | breakLoop => exact fun r => Lower.leave_uniform fun hid => (Relabelling.label_loop hid).2.2
  | continueLoop => exact fun r => Lower.leave_uniform fun hid => (Relabelling.label_loop hid).1

theorem lowerBlock_uniform (stmts : List Stmt) : Uniform a b r (lowerBlock signature stmts) :=
  lowerBlock_uniform_of fun stmt _ => stmt.lower_uniform

end Stmt

end ArmBackend
