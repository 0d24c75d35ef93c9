import ArmBackend.Proofs.Events
import ArmBackend.Proofs.Expr.Links

/-!
# References that lowering an expression makes

Lowering refers to the functions that the expression calls, in the order of the text and a function before
its arguments. Where it fails it has referred to a first part of them.
-/

namespace ArmBackend

open Event (refers)
open Session (Performs)

def Operand.Refers (names : List String) (operand : Operand) : Prop :=
  ∀ target, Performs (refers names) (operand.lower target)

namespace Lower

variable {target : Reservation} {exprs : List Expr} {regs : List Register} {names others : List String}

theorem binary_refers {op : BinOp} {ty : Ty} {lhs rhs : Operand} (hlhs : lhs.Refers names)
    (hrhs : rhs.Refers others) : Performs (refers (names ++ others)) (binary op ty target lhs rhs) :=
  .quiet_bind (.lift _) fun _ => .quiet_bind (.onFrame _) fun left => .bind_refers (hlhs left) fun _ =>
  .quiet_bind (.onFrame _) fun right => .bind_quiet (hrhs right) fun _ => .quiet_bind (.lift _) fun _ =>
  .quiet_bind (.onFrame _) fun _ => .quiet_bind (.onFrame _) fun _ => .pure _

theorem unary_refers {op : UnOp} {operand : Operand} (hoperand : operand.Refers names) :
    Performs (refers names) (unary op target operand) := by
  refine .quiet_bind (.lift _) fun _ => ?_
  cases target.register? with
  | some reg => exact .bind_quiet (hoperand _) fun _ => .quiet_bind (.lift _) fun _ => .pure _
  | none =>
    exact .quiet_bind (.onFrame _) fun res => .bind_quiet (hoperand res) fun _ =>
      .quiet_bind (.lift _) fun _ => .quiet_bind (.onFrame _) fun _ => .pure _

theorem addressOf_refers {operand : Expr} : Performs (refers operand.callees) (addressOf target operand) := by
  cases operand with
  | var name ty => exact .quiet_bind (.onFrame _) fun _ => .lift _
  | _ => exact .throw _

theorem string_refers {text : String} : Performs [] (string target text) :=
  .quiet_bind (.intern text) fun _ => .lift _

theorem reserveElements_refers {ty : Ty} {count : Nat} {slots : List Slot} :
    Performs [] (reserveElements ty count slots) := by
  induction count generalizing slots with
  | zero => exact .pure _
  | succ count ih => exact .quiet_bind (.onFrame _) fun _ => ih

theorem elements_refers {slots : List Slot} (hexprs : ∀ expr ∈ exprs, expr.operand.Refers expr.callees)
    (hlength : slots.length = exprs.length) :
    Performs (refers (Expr.allCallees exprs)) (elements slots (exprs.map Expr.operand)) := by
  induction exprs generalizing slots with
  | nil =>
    obtain rfl := List.eq_nil_of_length_eq_zero hlength
    exact .pure _
  | cons expr exprs ih =>
    obtain ⟨hexpr, hrest⟩ := List.forall_mem_cons.mp hexprs
    cases slots with
    | nil => cases hlength
    | cons slot slots =>
      have htail := ih hrest (Nat.succ.inj hlength)
      exact .bind_refers (hexpr _) fun _ => .bind_quiet htail fun _ => .pure _

theorem array_refers {ty : Ty} (hexprs : ∀ expr ∈ exprs, expr.operand.Refers expr.callees) :
    Performs (refers (Expr.allCallees exprs)) (array ty target (exprs.map Expr.operand)) := by
  rw [array]
  cases ty.pointee? with
  | none => exact .throw _
  | some elementTy =>
    refine reserveElements_refers.bind_of_ok fun {_ slots _} hslots => ?_
    have hlength := reserveElements_length hslots
    rw [List.length_nil, Nat.zero_add, List.length_map] at hlength
    refine .bind_quiet (elements_refers hexprs hlength) fun _ => ?_
    cases slots with
    | nil => exact .throw _
    | cons first slots => exact .quiet_bind (.lift _) fun _ => .pure _

/-! ## Calls -/

theorem shield_refers (hexprs : ∀ expr ∈ exprs, expr.operand.Refers expr.callees)
    (hlength : exprs.length ≤ regs.length) :
    Performs (refers (Expr.allCallees exprs)) (shield (exprs.map Expr.operand) regs) := by
  induction exprs generalizing regs with
  | nil => exact .pure _
  | cons expr exprs ih =>
    obtain ⟨hexpr, hrest⟩ := List.forall_mem_cons.mp hexprs
    cases regs with
    | nil => simp at hlength
    | cons reg regs =>
      have htail : Performs (refers (Expr.allCallees exprs)) (shield (exprs.map Expr.operand) regs) :=
        ih hrest (by simpa using hlength)
      rw [List.map_cons, shield]
      split
      case isTrue =>
        exact .quiet_bind (.onFrame _) fun res => .bind_refers (hexpr res) fun _ =>
          .bind_quiet htail fun _ => .pure _
      case isFalse hcalls =>
        rw [Expr.allCallees, Expr.callees_eq_nil (Bool.not_eq_true _ ▸ hcalls)]
        exact htail

theorem direct_refers (hexprs : ∀ expr ∈ exprs, expr.operand.Refers expr.callees) :
    Performs [] (direct (exprs.map Expr.operand) regs) := by
  induction exprs generalizing regs with
  | nil => exact .pure _
  | cons expr exprs ih =>
    obtain ⟨hexpr, hrest⟩ := List.forall_mem_cons.mp hexprs
    cases regs with
    | nil => exact .pure _
    | cons reg regs =>
      rw [List.map_cons, direct]
      split
      case isTrue => exact ih hrest
      case isFalse hcalls =>
        rw [Expr.callees_eq_nil (Bool.not_eq_true _ ▸ hcalls)] at hexpr
        exact .quiet_bind (hexpr _) fun _ => .quiet_bind (ih hrest) fun _ => .pure _

theorem releaseTemps_refers {count : Nat} : Performs [] (releaseTemps count) := by
  induction count with
  | zero => exact .pure _
  | succ count ih => exact .quiet_bind (.onFrame _) fun _ => ih

theorem arguments_refers (hexprs : ∀ expr ∈ exprs, expr.operand.Refers expr.callees)
    (hlength : exprs.length ≤ regs.length) :
    Performs (refers (Expr.allCallees exprs)) (arguments (exprs.map Expr.operand) regs) :=
  .bind_quiet (shield_refers hexprs hlength) fun _ => .quiet_bind (direct_refers hexprs) fun _ =>
    .quiet_bind (.lift _) fun _ => .quiet_bind releaseTemps_refers fun _ => .pure _

theorem argRegisters_bind {α : Type} {events : List Event} {next : List Register → CompileM α}
    (hnext : ∀ regs, exprs.length ≤ regs.length → Performs events (next regs)) :
    Performs events ((argRegisters (exprs.map Expr.operand).length : CompileM (List Register)) >>= next) := by
  refine (Performs.lift _).bind_of_ok fun {_ regs _} hregs => hnext regs ?_
  rw [StepM.run_monadLift] at hregs
  have hlength := length_of_argRegisters (Prod.mk.inj hregs).1
  rw [List.length_map] at hlength
  exact Nat.le_of_eq hlength.symm

theorem functionCall_refers {callee : String} {target : Option Reservation}
    (hexprs : ∀ expr ∈ exprs, expr.operand.Refers expr.callees) :
    Performs (refers (callee :: Expr.allCallees exprs))
      (functionCall callee (exprs.map Expr.operand) target) := by
  refine .quiet_bind (.signatureOf callee) fun signature => .quiet_bind (.lift _) fun _ =>
    .bind (.refer callee) fun _ => argRegisters_bind fun regs hlength =>
    .bind_quiet (arguments_refers hexprs hlength) fun _ => ?_
  exact .quiet_bind (.onFrame _) fun _ => .quiet_bind .get fun _ => .quiet_bind (.modify fun _ => rfl) fun _ =>
    .quiet_bind (.modify fun _ => rfl) fun _ => .quiet_bind (.lift _) fun _ => .pure _

theorem trapOperands_refers {number : Expr} (hnumber : number.operand.Refers number.callees)
    (hexprs : ∀ expr ∈ exprs, expr.operand.Refers expr.callees) (hlength : exprs.length ≤ regs.length) :
    Performs (refers (number.callees ++ Expr.allCallees exprs))
      (trapOperands number.operand (exprs.map Expr.operand) regs) := by
  have hargs := arguments_refers hexprs hlength
  rw [trapOperands]
  split
  case isTrue =>
    exact .quiet_bind (.onFrame _) fun res => .bind_refers (hnumber res) fun _ => .bind_quiet hargs fun _ =>
      .quiet_bind (.lift _) fun _ => .quiet_bind (.onFrame _) fun _ => .pure _
  case isFalse hcalls =>
    rw [Expr.callees_eq_nil (Bool.not_eq_true _ ▸ hcalls)] at hnumber ⊢
    exact .bind_quiet hargs fun _ => .quiet_bind (hnumber _) fun _ => .pure _

theorem trap_refers {target : Option Reservation}
    (hexprs : ∀ expr ∈ exprs, expr.operand.Refers expr.callees) :
    Performs (refers (Expr.allCallees exprs)) (trap (exprs.map Expr.operand) target) := by
  cases exprs with
  | nil => exact .throw _
  | cons number args =>
    obtain ⟨hnumber, hargs⟩ := List.forall_mem_cons.mp hexprs
    exact argRegisters_bind fun regs hlength =>
      .bind_quiet (trapOperands_refers hnumber hargs hlength) fun _ =>
      .quiet_bind (.modify fun _ => rfl) fun _ => .quiet_bind (.lift _) fun _ => .pure _

theorem call_refers {callee : String} {target : Option Reservation}
    (hexprs : ∀ expr ∈ exprs, expr.operand.Refers expr.callees) :
    Performs (refers ((if callee = trapCallee then [] else [callee]) ++ Expr.allCallees exprs))
      (call callee (exprs.map Expr.operand) target) := by
  rw [call]
  split
  · exact trap_refers hexprs
  · exact functionCall_refers hexprs

end Lower

/-! ## All expressions -/

theorem Expr.operand_refers (expr : Expr) : expr.operand.Refers expr.callees := by
  induction expr using Expr.induct with
  | literal value ty => exact fun target => .lift _
  | var name ty => exact fun target => .quiet_bind (.onFrame _) fun _ => .lift _
  | deref pointer ty ih => exact fun target => Lower.unary_refers ih
  | call callee args ty ih =>
    intro target
    simp only [operand, lower, operands_eq_map]
    exact Lower.call_refers ih
  | binary op lhs rhs ty ihl ihr => exact fun target => Lower.binary_refers ihl ihr
  | unary op operand ty ih =>
    intro target
    simp only [Expr.operand, Expr.lower]
    split
    · have haddress : Performs (refers operand.callees) (Lower.addressOf target operand) :=
        Lower.addressOf_refers
      exact haddress
    · exact Lower.unary_refers ih
  | array elements ty ih =>
    intro target
    simp only [operand, lower, operands_eq_map]
    exact Lower.array_refers ih
  | str text ty => exact fun target => Lower.string_refers
  | empty ty => exact fun target => .pure _

theorem Expr.lower_refers (expr : Expr) (target : Reservation) :
    Performs (refers expr.callees) (expr.lower target) := expr.operand_refers target

end ArmBackend
