import ArmBackend.Proofs.Expr.Inversion
import ArmBackend.Proofs.Expr.Shape
import ArmBackend.Proofs.Twins

/-!
# Expressions in two runs

The code of an expression depends on the frame and on what the session knows of the callees. Of everything
else that came before it shows only where the texts lie.
-/

namespace ArmBackend

open Code (Inert)
open Relabelling (Turns)
open Session (Tandem Uniform onFrame)
open ArmBackend.Frame (Loopless)

variable {a b : Session} {r : Relabelling} {target : Reservation}

def Operand.Uniform (a b : Session) (operand : Operand) : Prop :=
  ∀ r target, Session.Uniform a b r (operand.lower target)

namespace Lower

variable {args : List Operand} {regs : List Register}

theorem binary_uniform {op : BinOp} {ty : Ty} {lhs rhs : Operand} (hlhs : lhs.Uniform a b)
    (hrhs : rhs.Uniform a b) : Uniform a b r (binary op ty target lhs rhs) :=
  .check fun _ _ =>
  .onFrame (.reserveTemp ty) fun left => .bind (hlhs _ left) fun _ _ _ _ hleft =>
  .onFrame (.reserveTemp rhs.ty) fun right => .bind (hrhs _ right) fun _ _ _ hlater hright =>
  .check fun _ hop => .onFrame .releaseTemp fun _ => .onFrame .releaseTemp fun _ =>
  .pure (.append (.append (hleft.later hlater) hright) (BinOp.inert_code hop).turns)

theorem unary_uniform {op : UnOp} {operand : Operand} (hoperand : operand.Uniform a b) :
    Uniform a b r (unary op target operand) := by
  refine .check fun _ _ => ?_
  cases target.register? with
  | some reg =>
    exact .bind (hoperand _ _) fun _ _ _ _ hcode => .check fun _ hop =>
      .pure (.append hcode (UnOp.inert_code hop).turns)
  | none =>
    exact .onFrame (.reserveTemp operand.ty) fun res => .bind (hoperand _ res) fun _ _ _ _ hcode =>
      .check fun _ hop => .onFrame .releaseTemp fun _ =>
      .pure (.append hcode (UnOp.inert_code hop).turns)

theorem address_turns {build build' : Register → Code} (h : ∀ reg, r.Turns (build reg) (build' reg)) :
    SameOutcome r.Turns (address target build) (address target build') := by
  simp only [address]
  cases hcopy : Code.copy (target.inRegister target.stagingRegister) target with
  | error e => exact .error e
  | ok code => exact .ok ((h _).append (Code.inert_copy hcopy).turns)

theorem addressOf_uniform {operand : Expr} : Uniform a b r (addressOf target operand) := by
  cases operand with
  | var name ty =>
    exact .onFrame (.resolve name) fun slot =>
      .lift (address_turns fun _ => (Code.inert_frameAddress _).turns)
  | _ => exact .throw _

theorem string_uniform {text : String} : Uniform a b r (string target text) :=
  .bind (.intern text) fun _ _ _ _ hlabel => .lift (address_turns fun reg => .labelAddress reg hlabel)

/-! ## Arrays -/

theorem reserveElements_tandem {ty : Ty} {count : Nat} {slots : List Slot} {β : Type}
    {next next' : List Slot → CompileM β} {R : Relabelling → β → β → Prop}
    (hnext : ∀ slots, Tandem a b r (next slots) (next' slots) R) :
    Tandem a b r (reserveElements ty count slots >>= next) (reserveElements ty count slots >>= next') R := by
  induction count generalizing slots with
  | zero => exact hnext slots
  | succ count ih =>
    simp only [reserveElements, bind_assoc]
    exact .onFrame (.reserveVariable ty) fun _ => ih

theorem elements_uniform {slots : List Slot} {operands : List Operand}
    (h : ∀ operand ∈ operands, operand.Uniform a b) : Uniform a b r (elements slots operands) := by
  induction slots generalizing r operands with
  | nil => exact .pure .nil
  | cons slot slots ih =>
    cases operands with
    | nil => exact .pure .nil
    | cons operand operands =>
      obtain ⟨hoperand, hoperands⟩ := List.forall_mem_cons.mp h
      exact .bind (hoperand _ _) fun _ _ _ _ hcode => .bind (ih hoperands) fun _ _ _ hlater hrest =>
        .pure (.append (hcode.later hlater) hrest)

theorem array_uniform {ty : Ty} {operands : List Operand} (h : ∀ operand ∈ operands, operand.Uniform a b) :
    Uniform a b r (array ty target operands) := by
  rw [array]
  cases ty.pointee? with
  | none => exact .throw _
  | some elementTy =>
    refine reserveElements_tandem fun slots => .bind (elements_uniform h) fun _ _ _ _ hcode => ?_
    cases slots with
    | nil => exact .throw _
    | cons first slots =>
      refine .bind (.lift (address_turns fun _ => (Code.inert_frameAddress _).turns))
        fun _ _ _ hlater haddress => .pure (.append (hcode.later hlater) haddress)

/-! ## Calls -/

theorem shield_tandem (h : ∀ arg ∈ args, arg.Uniform a b) :
    Tandem a b r (shield args regs) (shield args regs) fun r out out' =>
      r.Turns out.1 out'.1 ∧ out.2 = out'.2 := by
  induction args generalizing r regs with
  | nil => exact .pure ⟨.nil, rfl⟩
  | cons arg args ih =>
    cases regs with
    | nil => exact .pure ⟨.nil, rfl⟩
    | cons reg regs =>
      obtain ⟨harg, hargs⟩ := List.forall_mem_cons.mp h
      rw [shield]
      split
      · exact .onFrame (.reserveTemp arg.ty) fun res => .bind (harg _ res) fun _ _ _ _ hcode =>
          .bind (ih hargs) fun _ _ _ hlater hrest =>
            .pure ⟨.append (hcode.later hlater) hrest.1, congrArg ((res, reg) :: ·) hrest.2⟩
      · exact ih hargs

theorem direct_uniform (h : ∀ arg ∈ args, arg.Uniform a b) : Uniform a b r (direct args regs) := by
  induction args generalizing r regs with
  | nil => exact .pure .nil
  | cons arg args ih =>
    cases regs with
    | nil => exact .pure .nil
    | cons reg regs =>
      obtain ⟨harg, hargs⟩ := List.forall_mem_cons.mp h
      rw [direct]
      split
      · exact ih hargs
      · exact .bind (harg _ _) fun _ _ _ _ hcode => .bind (ih hargs) fun _ _ _ hlater hrest =>
          .pure (.append (hcode.later hlater) hrest)

theorem inert_unshield {shielded : List (Reservation × Register)} {code : Code}
    (h : unshield shielded = .ok code) : Inert code := by
  induction shielded generalizing code with
  | nil =>
    cases h
    exact ⟨rfl, rfl⟩
  | cons p shielded ih =>
    obtain ⟨copyCode, restCode, hcopy, hrest, rfl⟩ := unshield_cons_ok h
    exact (Code.inert_copy hcopy).append (ih hrest)

theorem releaseTemps_tandem {count : Nat} {β : Type} {next next' : Unit → CompileM β}
    {R : Relabelling → β → β → Prop} (hnext : Tandem a b r (next ()) (next' ()) R) :
    Tandem a b r (releaseTemps count >>= next) (releaseTemps count >>= next') R := by
  induction count with
  | zero => exact hnext
  | succ count ih =>
    simp only [releaseTemps, bind_assoc]
    exact .onFrame .releaseTemp fun _ => ih

theorem arguments_uniform (h : ∀ arg ∈ args, arg.Uniform a b) : Uniform a b r (arguments args regs) := by
  refine .bind (shield_tandem h) fun _ ⟨shieldCode, shielded⟩ ⟨shieldCode', shielded'⟩ _ ⟨hshield, heq⟩ => ?_
  obtain rfl : shielded = shielded' := heq
  exact .bind (direct_uniform h) fun _ _ _ hlater hdirect => .check fun _ hcopy => releaseTemps_tandem
    (.pure (.append (.append (hshield.later hlater) hdirect) (inert_unshield hcopy).turns))

theorem inert_result {ty : Ty} {target : Option Reservation} {code : Code} (h : result ty target = .ok code) :
    Inert code := by
  cases target with
  | none =>
    cases h
    exact ⟨rfl, rfl⟩
  | some target => exact Code.inert_copy h

theorem functionCall_uniform {callee : String} {target : Option Reservation}
    (h : ∀ arg ∈ args, arg.Uniform a b) : Uniform a b r (functionCall callee args target) := by
  refine .signatureOf callee fun signature => .check fun _ _ =>
    .modify (fun _ _ htwins => htwins.markUsed callee) <| .check fun regs _ =>
    .bind (arguments_uniform h) fun _ _ _ _ hargs => .onFrame (.read fun _ _ => rfl) fun live =>
    .get fun σ τ hoptions => .modify (fun _ _ htwins => htwins.recordCall) <|
    .modify (fun _ _ htwins => htwins.recordSaves live.length) <| .check fun _ hresult => ?_
  rw [hoptions]
  have hbranch : ∀ {r : Relabelling} {label : String},
      r.Turns (Code.ofInstrs [.bl (.named label)]) (Code.ofInstrs [.bl (.named label)]) := rfl
  exact .pure (.append (.append (.append (.append hargs (Code.inert_saveRegs live).turns) hbranch)
    (Code.inert_restoreRegs live).turns) (inert_result hresult).turns)

theorem trapOperands_uniform {number : Operand} (hnumber : number.Uniform a b)
    (h : ∀ arg ∈ args, arg.Uniform a b) : Uniform a b r (trapOperands number args regs) := by
  rw [trapOperands]
  split
  · exact .onFrame (.reserveTemp .int) fun res => .bind (hnumber _ res) fun _ _ _ _ hcode =>
      .bind (arguments_uniform h) fun _ _ _ hlater hargs => .check fun _ hcopy =>
      .onFrame .releaseTemp fun _ =>
      .pure (.append (.append (hcode.later hlater) hargs) (Code.inert_copy hcopy).turns)
  · exact .bind (arguments_uniform h) fun _ _ _ _ hargs => .bind (hnumber _ _) fun _ _ _ hlater hcode =>
      .pure (.append (hargs.later hlater) hcode)

theorem trap_uniform {operands : List Operand} {target : Option Reservation}
    (h : ∀ operand ∈ operands, operand.Uniform a b) : Uniform a b r (trap operands target) := by
  cases operands with
  | nil => exact .throw _
  | cons number args =>
    obtain ⟨hnumber, hargs⟩ := List.forall_mem_cons.mp h
    have htrap : Inert (Code.ofInstrs [.svc trapImm]) := ⟨rfl, rfl⟩
    exact .check fun regs _ => .bind (trapOperands_uniform hnumber hargs) fun _ _ _ _ hcode =>
      .modify (fun _ _ htwins => htwins.recordCall) <| .check fun _ hresult =>
      .pure (.append (.append hcode htrap.turns) (inert_result hresult).turns)

theorem call_uniform {callee : String} {target : Option Reservation} (h : ∀ arg ∈ args, arg.Uniform a b) :
    Uniform a b r (call callee args target) := by
  rw [call]
  split
  · exact trap_uniform h
  · exact functionCall_uniform h

end Lower

/-! ## All expressions -/

namespace Expr

theorem operand_uniform (expr : Expr) : expr.operand.Uniform a b := by
  induction expr using Expr.induct with
  | literal value ty =>
    exact fun r target => .lift (.refl fun _ hcode => (Code.inert_putConstant hcode).turns)
  | var name ty =>
    exact fun r target => .onFrame (.resolve name) fun slot =>
      .lift (.refl fun _ hcode => (Code.inert_copy hcode).turns)
  | deref pointer ty ih => exact fun r target => Lower.unary_uniform ih
  | call callee args ty ih => exact fun r target => Lower.call_uniform (forall_operands.mpr ih)
  | binary op lhs rhs ty ihl ihr => exact fun r target => Lower.binary_uniform ihl ihr
  | unary op operand ty ih =>
    intro r target
    simp only [Expr.operand, Expr.lower]
    split
    · exact Lower.addressOf_uniform
    · exact Lower.unary_uniform ih
  | array elements ty ih => exact fun r target => Lower.array_uniform (forall_operands.mpr ih)
  | str text ty => exact fun r target => Lower.string_uniform
  | empty ty => exact fun r target => .pure .nil

theorem lower_uniform (expr : Expr) (target : Reservation) : Uniform a b r (expr.lower target) :=
  expr.operand_uniform r target

end Expr

end ArmBackend
