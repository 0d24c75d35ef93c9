import ArmBackend.Expr.Lower
import ArmBackend.Proofs.Expr.Shape
import ArmBackend.Proofs.Frame.Faults

/-!
# Lowering expressions, whatever the outcome

Also where it fails, the lowering of an expression keeps the frames below the innermost one and the loops. It
takes no ids of branches and loops, and it never fails for temporaries that are left over.
-/

namespace ArmBackend

open CompileError (Sealed External)
open Session (onFrame outline)

variable {α β : Type}

/-! ## Checks and code -/

section Outcomes

variable {source target res : Reservation}

theorem Check.binary_allows (op : BinOp) (lhs rhs : Ty) :
    Allows External (Check.binary op lhs rhs) := .ite (.ok _) (.error nofun)

theorem Check.unary_allows (op : UnOp) (operand : Ty) : Allows External (Check.unary op operand) :=
  .ite (.ok _) (.error nofun)

theorem argRegisters_allows (count : Nat) : Allows External (argRegisters count) :=
  .ite (.ok _) (.error nofun)

theorem Lower.checkArguments_allows (callee : String) (params : List Param) (args : List Operand) :
    Allows External (Lower.checkArguments callee params args) := by
  induction params generalizing args with
  | nil => exact .ok _
  | cons param params ih =>
    cases args with
    | nil => exact .ok _
    | cons arg args => exact .ite (ih args) (.error nofun)

theorem Lower.checkCall_allows (signature : Signature) (args : List Operand)
    (target : Option Reservation) : Allows External (Lower.checkCall signature args target) := by
  rw [Lower.checkCall]
  split
  · exact .error nofun
  · refine .bind (checkArguments_allows _ _ _) fun _ => ?_
    split
    · exact .error nofun
    · exact .ok _

theorem Code.copy_allows : Allows Sealed (Code.copy source target) := by
  rw [Code.copy]
  split
  · exact .ok _
  · split <;> first | exact .ok _ | exact .error rfl

theorem Code.putConstant_allows {bits : Word} : Allows Sealed (Code.putConstant target bits) := by
  rw [Code.putConstant]
  split <;> first | exact .ok _ | exact .error rfl

theorem Code.operandOf_allows : Allows Sealed (Code.operandOf res) := by
  rw [Code.operandOf]
  split
  · exact .ok _
  · exact .bind copy_allows fun _ => .ok _

theorem BinOp.code_allows {op : BinOp} {lhs rhs : Reservation} :
    Allows Sealed (op.code target lhs rhs) :=
  .bind Code.copy_allows fun _ => .bind Code.operandOf_allows fun _ =>
    .bind Code.copy_allows fun _ => .ok _

theorem UnOp.code_allows {op : UnOp} : Allows Sealed (op.code target res) := by
  refine .bind Code.operandOf_allows fun ⟨load, src⟩ => ?_
  cases op with
  | deref =>
    dsimp only
    split
    · exact .bind (.ok _) fun _ => .bind Code.copy_allows fun _ => .ok _
    · exact .error rfl
  | addrOf => exact .error rfl
  | _ => exact .bind (.ok _) fun _ => .bind Code.copy_allows fun _ => .ok _

end Outcomes

/-! ## Steps from any session -/

/-- From every session the step upholds the outline, and it fails for no temporaries that are left. -/
def Session.Tight (step : CompileM α) : Prop := ∀ session, step.Upholds outline Sealed session

def Session.Still (step : CompileM α) : Prop := ∀ session, step.Upholds sketch Sealed session

namespace Session.Still

variable {step : CompileM α} {next : α → CompileM β}

theorem tight (h : Still step) : Tight step := fun session =>
  ⟨congrArg Prod.fst (h session).view, (h session).allows⟩

theorem pure (a : α) : Still (pure a : CompileM α) := fun _ => .pure a

theorem throw {e : CompileError} (h : e.Sealed) : Still (throw e : CompileM α) := fun _ => .throw h

theorem lift {outcome : Except CompileError α} (h : Allows Sealed outcome) :
    Still (monadLift outcome : CompileM α) := fun _ => .lift h

theorem lift_external {outcome : Except CompileError α} (h : Allows External outcome) :
    Still (monadLift outcome : CompileM α) := lift (h.mono fun _ => External.sealed)

theorem bind (h : Still step) (hnext : ∀ a, Still (next a)) : Still (step >>= next) :=
  fun session => .bind (h session) fun a t _ => hnext a t

theorem modify {f : Session → Session} (h : ∀ session, (f session).sketch = session.sketch) :
    Still (modify f : CompileM Unit) := fun session => .modify (h session)

theorem get : Still (get : CompileM Session) := fun session => ⟨rfl, .ok session⟩

theorem onFrame {operation : FrameM α} (h : ∀ f, operation.Upholds Frame.loops Sealed f) :
    Still (onFrame operation) := fun session => by
  have houtline : (Session.onFrame operation).Upholds outline Sealed session :=
    onFrame_upholds (fun _ => rfl) fun _ => h _
  refine ⟨Prod.ext houtline.view ?_, houtline.allows⟩
  rw [onFrame_run]
  split <;> rfl

theorem reserveTemp (ty : Ty) : Still (Session.onFrame (Frame.reserveTemp ty)) :=
  onFrame fun _ => Frame.reserveTemp_upholds

theorem releaseTemp : Still (Session.onFrame Frame.releaseTemp) :=
  onFrame fun _ => Frame.releaseTemp_upholds

theorem resolve (name : String) : Still (Session.onFrame (Frame.resolve name)) :=
  onFrame fun _ => Frame.resolve_upholds

end Session.Still

open Session (Still)

theorem Session.signatureOf_still (name : String) : Still (Session.signatureOf name) := by
  intro session
  refine .get_bind ?_
  split
  · exact .pure _
  · exact .throw rfl

theorem Session.intern_still (text : String) : Still (Session.intern text) :=
  fun _ => .get_bind (.bind (.set rfl) fun _ _ _ => .pure _)

theorem Session.markUsed_frames (name : String) (session : Session) :
    (markUsed name session).frames = session.frames := by
  obtain ⟨_, h⟩ := markUsed_eq name session
  rw [h]

theorem Session.markUsed_sketch (name : String) (session : Session) :
    (markUsed name session).sketch = session.sketch := by
  obtain ⟨_, h⟩ := markUsed_eq name session
  rw [h]
  rfl

/-! ## Operands -/

def Operand.Still (operand : Operand) : Prop := ∀ target, Session.Still (operand.lower target)

namespace Lower

variable {target : Reservation} {args : List Operand} {regs : List Register}

theorem binary_still {op : BinOp} {ty : Ty} {lhs rhs : Operand} (hlhs : lhs.Still) (hrhs : rhs.Still) :
    Still (binary op ty target lhs rhs) :=
  .bind (.lift_external (Check.binary_allows _ _ _)) fun _ =>
  .bind (.reserveTemp ty) fun left => .bind (hlhs left) fun _ =>
  .bind (.reserveTemp rhs.ty) fun right => .bind (hrhs right) fun _ =>
  .bind (.lift BinOp.code_allows) fun _ =>
  .bind .releaseTemp fun _ => .bind .releaseTemp fun _ => .pure _

theorem unary_still {op : UnOp} {operand : Operand} (hoperand : operand.Still) :
    Still (unary op target operand) := by
  refine .bind (.lift_external (Check.unary_allows _ _)) fun _ => ?_
  cases target.register? with
  | some reg => exact .bind (hoperand _) fun _ => .bind (.lift UnOp.code_allows) fun _ => .pure _
  | none =>
    exact .bind (.reserveTemp operand.ty) fun res => .bind (hoperand res) fun _ =>
      .bind (.lift UnOp.code_allows) fun _ => .bind .releaseTemp fun _ => .pure _

theorem address_allows {build : Register → Code} : Allows Sealed (address target build) :=
  .bind Code.copy_allows fun _ => .ok _

theorem addressOf_still {operand : Expr} : Still (addressOf target operand) := by
  cases operand with
  | var name ty => exact .bind (.resolve name) fun _ => .lift address_allows
  | _ => exact .throw rfl

theorem string_still {text : String} : Still (string target text) :=
  .bind (Session.intern_still text) fun _ => .lift address_allows

theorem reserveElements_still {ty : Ty} {count : Nat} {slots : List Slot} :
    Still (reserveElements ty count slots) := by
  induction count generalizing slots with
  | zero => exact .pure _
  | succ count ih => exact .bind (.onFrame fun _ => Frame.reserveVariable_upholds) fun _ => ih

theorem elements_still {slots : List Slot} {operands : List Operand}
    (h : ∀ operand ∈ operands, operand.Still) : Still (elements slots operands) := by
  induction slots generalizing operands with
  | nil => exact .pure _
  | cons slot slots ih =>
    cases operands with
    | nil => exact .pure _
    | cons operand operands =>
      have hrest := ih fun other hother => h other (List.mem_cons_of_mem _ hother)
      exact .bind (h operand List.mem_cons_self _) fun _ => .bind hrest fun _ => .pure _

theorem array_still {ty : Ty} {operands : List Operand} (h : ∀ operand ∈ operands, operand.Still) :
    Still (array ty target operands) := by
  rw [array]
  cases ty.pointee? with
  | none => exact .throw rfl
  | some elementTy =>
    refine .bind reserveElements_still fun slots => .bind (elements_still h) fun _ => ?_
    cases slots with
    | nil => exact .throw rfl
    | cons first slots => exact .bind (.lift address_allows) fun _ => .pure _

/-! ## Calls -/

theorem shield_still (h : ∀ arg ∈ args, arg.Still) : Still (shield args regs) := by
  induction args generalizing regs with
  | nil => exact .pure _
  | cons arg args ih =>
    cases regs with
    | nil => exact .pure _
    | cons reg regs =>
      have hrest : Still (shield args regs) := ih fun other hother =>
        h other (List.mem_cons_of_mem _ hother)
      rw [shield]
      split
      · exact .bind (.reserveTemp arg.ty) fun res => .bind (h arg List.mem_cons_self res) fun _ =>
          .bind hrest fun _ => .pure _
      · exact hrest

theorem direct_still (h : ∀ arg ∈ args, arg.Still) : Still (direct args regs) := by
  induction args generalizing regs with
  | nil => exact .pure _
  | cons arg args ih =>
    cases regs with
    | nil => exact .pure _
    | cons reg regs =>
      have hrest : Still (direct args regs) := ih fun other hother =>
        h other (List.mem_cons_of_mem _ hother)
      rw [direct]
      split
      · exact hrest
      · exact .bind (h arg List.mem_cons_self _) fun _ => .bind hrest fun _ => .pure _

theorem unshield_allows {shielded : List (Reservation × Register)} :
    Allows Sealed (unshield shielded) := by
  induction shielded with
  | nil => exact .ok _
  | cons first shielded ih => exact .bind Code.copy_allows fun _ => .bind ih fun _ => .ok _

theorem releaseTemps_still {count : Nat} : Still (releaseTemps count) := by
  induction count with
  | zero => exact .pure _
  | succ count ih => exact .bind .releaseTemp fun _ => ih

theorem arguments_still (h : ∀ arg ∈ args, arg.Still) : Still (arguments args regs) :=
  .bind (shield_still h) fun _ => .bind (direct_still h) fun _ => .bind (.lift unshield_allows) fun _ =>
    .bind releaseTemps_still fun _ => .pure _

theorem result_allows {ty : Ty} {target : Option Reservation} : Allows Sealed (result ty target) := by
  cases target with
  | none => exact .ok _
  | some target => exact Code.copy_allows

theorem functionCall_still {callee : String} {target : Option Reservation}
    (h : ∀ arg ∈ args, arg.Still) : Still (functionCall callee args target) :=
  .bind (Session.signatureOf_still callee) fun _ =>
  .bind (.lift_external (checkCall_allows _ _ _)) fun _ =>
  .bind (.modify (Session.markUsed_sketch callee)) fun _ =>
  .bind (.lift_external (argRegisters_allows _)) fun _ =>
  .bind (arguments_still h) fun _ =>
  .bind (.onFrame fun f => ⟨rfl, .ok f.liveTempRegs⟩) fun _ =>
  .bind .get fun _ =>
  .bind (.modify fun _ => rfl) fun _ =>
  .bind (.modify fun _ => rfl) fun _ =>
  .bind (.lift result_allows) fun _ => .pure _

theorem trapOperands_still {number : Operand} (hnumber : number.Still) (h : ∀ arg ∈ args, arg.Still) :
    Still (trapOperands number args regs) := by
  rw [trapOperands]
  split
  · exact .bind (.reserveTemp .int) fun res => .bind (hnumber res) fun _ =>
      .bind (arguments_still h) fun _ => .bind (.lift Code.copy_allows) fun _ =>
      .bind .releaseTemp fun _ => .pure _
  · exact .bind (arguments_still h) fun _ => .bind (hnumber _) fun _ => .pure _

theorem trap_still {operands : List Operand} {target : Option Reservation}
    (h : ∀ operand ∈ operands, operand.Still) : Still (trap operands target) := by
  cases operands with
  | nil => exact .throw rfl
  | cons number args =>
    have hargs : ∀ arg ∈ args, arg.Still := fun arg harg => h arg (List.mem_cons_of_mem _ harg)
    exact .bind (.lift_external (argRegisters_allows _)) fun _ =>
      .bind (trapOperands_still (h number List.mem_cons_self) hargs) fun _ =>
      .bind (.modify fun _ => rfl) fun _ => .bind (.lift result_allows) fun _ => .pure _

theorem call_still {callee : String} {target : Option Reservation} (h : ∀ arg ∈ args, arg.Still) :
    Still (call callee args target) := by
  rw [call]
  split
  · exact trap_still h
  · exact functionCall_still h

end Lower

/-! ## All expressions -/

theorem Expr.operand_still (expr : Expr) : expr.operand.Still := by
  induction expr using Expr.induct with
  | literal value ty => exact fun target => .lift Code.putConstant_allows
  | var name ty => exact fun target => .bind (.resolve name) fun _ => .lift Code.copy_allows
  | deref pointer ty ih => exact fun target => Lower.unary_still ih
  | call callee args ty ih => exact fun target => Lower.call_still (forall_operands.mpr ih)
  | binary op lhs rhs ty ihl ihr => exact fun target => Lower.binary_still ihl ihr
  | unary op operand ty ih =>
    intro target
    simp only [Expr.operand, Expr.lower]
    split
    · exact Lower.addressOf_still
    · exact Lower.unary_still ih
  | array elements ty ih => exact fun target => Lower.array_still (forall_operands.mpr ih)
  | str text ty => exact fun target => Lower.string_still
  | empty ty => exact fun target => .pure _

theorem Expr.lower_still (expr : Expr) (target : Reservation) : Still (expr.lower target) :=
  expr.operand_still target

end ArmBackend
