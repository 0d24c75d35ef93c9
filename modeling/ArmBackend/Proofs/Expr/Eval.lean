import ArmBackend.Expr.Build
import ArmBackend.Proofs.Expr.Shape
import ArmBackend.Proofs.Machine.Operation
import Mathlib.Data.List.Forall2

/-!
# Values of expressions

What an expression is worth, given what its variables, addresses, texts and calls are worth. An
expression has no value where it depends on something that has none.
-/

namespace ArmBackend

structure Context where
  /-- What the variable of this name and type holds. -/
  value : String → Ty → Option Word
  /-- Where the variable of this name lies. -/
  address : String → Option Word
  /-- What memory holds. -/
  load : Width → Word → Option Word
  /-- Where a string constant lies. -/
  text : String → Word
  /-- What a call of a function with these arguments returns, if it returns: a word or nothing. -/
  call : String → List Word → Option (Option Word)

namespace Expr

mutual

/-- Results of operators are cut to their type. A call that returns more than its type holds has no
value. -/
def eval (ctx : Context) : Expr → Option Word
  | .literal value _ => some value.bits
  | .var name ty => ctx.value name ty
  | .deref pointer ty => (pointer.eval ctx).bind (ctx.load ty.width)
  | .call callee args ty =>
    if callee = trapCallee then none
    else (evalAll ctx args).bind fun values =>
      (ctx.call callee values).bind fun result => result.filter fun v => ty.width.low v = v
  | .binary op lhs rhs ty =>
    (lhs.eval ctx).bind fun a => (rhs.eval ctx).map fun b => ty.width.low (op.apply a b)
  | .unary op operand ty =>
    match op with
    | .addrOf =>
      match operand with
      | .var name _ => ctx.address name
      | _ => none
    | .deref => (operand.eval ctx).bind (ctx.load ty.width)
    | .neg | .not | .bitNot => (operand.eval ctx).map (op.apply operand.ty)
  | .str text _ => some (ctx.text text)
  | .array .. | .empty _ => none

def evalAll (ctx : Context) : List Expr → Option (List Word)
  | [] => some []
  | expr :: exprs => (expr.eval ctx).bind fun v => (evalAll ctx exprs).map (v :: ·)

end

theorem evalAll_eq_some {ctx : Context} {exprs : List Expr} {values : List Word}
    (h : evalAll ctx exprs = some values) :
    List.Forall₂ (fun expr v => expr.eval ctx = some v) exprs values := by
  induction exprs generalizing values with
  | nil =>
    cases h
    exact .nil
  | cons expr exprs ih =>
    obtain ⟨v, hv, hmap⟩ := Option.bind_eq_some_iff.mp h
    obtain ⟨rest, hrest, rfl⟩ := Option.map_eq_some_iff.mp hmap
    exact .cons hv (ih hrest)

/-! ## Well-typed expressions -/

mutual

/-- Whether every node carries the type that its operands give it. -/
def WellTyped : Expr → Prop
  | .literal value ty => ty = value.ty
  | .var .. => True
  | .deref pointer ty => pointer.WellTyped ∧ ty = UnOp.deref.result pointer.ty
  | .call _ args _ => AllWellTyped args
  | .binary op lhs rhs ty => lhs.WellTyped ∧ rhs.WellTyped ∧ ty = op.result lhs.ty rhs.ty
  | .unary op operand ty => operand.WellTyped ∧ ty = op.result operand.ty
  | .array elements ty => AllWellTyped elements ∧ ty.isPointer = true
  | .str _ ty => ty = .ptr .char
  | .empty ty => ty = .void

def AllWellTyped : List Expr → Prop
  | [] => True
  | expr :: exprs => expr.WellTyped ∧ AllWellTyped exprs

end

theorem allWellTyped_iff {exprs : List Expr} :
    AllWellTyped exprs ↔ ∀ expr ∈ exprs, expr.WellTyped := by
  induction exprs with
  | nil => simp [AllWellTyped]
  | cons expr exprs ih => simp [AllWellTyped, ih]

inductive Built : Expr → Prop
  | literal (value : Literal) : Built (Build.literal value)
  | var (name : String) (ty : Ty) : Built (Build.var name ty)
  | str (text : String) : Built (Build.str text)
  | empty : Built Build.empty
  | call (callee : String) (ty : Ty) {args : List Expr} (hargs : ∀ arg ∈ args, Built arg) :
      Built (Build.call callee ty args)
  | deref {pointer expr : Expr} (hpointer : Built pointer) (h : Build.deref pointer = .ok expr) :
      Built expr
  | binary {op : BinOp} {lhs rhs expr : Expr} (hlhs : Built lhs) (hrhs : Built rhs)
      (h : Build.binary op lhs rhs = .ok expr) : Built expr
  | unary {op : UnOp} {operand expr : Expr} (hoperand : Built operand)
      (h : Build.unary op operand = .ok expr) : Built expr
  | array {ty : Ty} {elements : List Expr} {expr : Expr} (helements : ∀ element ∈ elements, Built element)
      (h : Build.array ty elements = .ok expr) : Built expr

end Expr

namespace Build

theorem deref_ok {pointer expr : Expr} (h : deref pointer = .ok expr) :
    UnOp.deref.accepts pointer.ty = true ∧ expr = .deref pointer (UnOp.deref.result pointer.ty) := by
  simp only [deref, pointee] at h
  split at h
  · cases h
    exact ⟨‹_›, rfl⟩
  · cases h

theorem unary_ok {op : UnOp} {operand expr : Expr} (h : unary op operand = .ok expr) :
    op.accepts operand.ty = true ∧ expr = .unary op operand (op.result operand.ty) := by
  obtain ⟨_, hcheck, h₁⟩ := StepM.outcome_bind_eq_ok.mp h
  split at h₁ <;> cases h₁
  exact ⟨Check.unary_eq_ok.mp hcheck, rfl⟩

theorem binary_ok {op : BinOp} {lhs rhs expr : Expr} (h : binary op lhs rhs = .ok expr) :
    op.accepts lhs.ty rhs.ty = true ∧
      expr = .binary op (scaledOperands op lhs rhs).1 (scaledOperands op lhs rhs).2
        (op.result lhs.ty rhs.ty) := by
  obtain ⟨_, hcheck, h₁⟩ := StepM.outcome_bind_eq_ok.mp h
  cases h₁
  exact ⟨Check.binary_eq_ok.mp hcheck, rfl⟩

theorem array_ok {ty : Ty} {elements : List Expr} {expr : Expr}
    (h : array ty elements = .ok expr) : expr = .array elements (.ptr ty) := by
  simp only [array] at h
  split at h
  · split at h <;> cases h
    rfl
  · cases h

theorem scaled_wellTyped {offset : Expr} (h : offset.WellTyped) (size : Nat) :
    (scaled offset size).WellTyped := by
  rw [scaled]
  split
  · exact h
  · exact ⟨h, rfl, rfl⟩

theorem scaled_isPointer {offset : Expr} (h : offset.ty.pointee? = none) (size : Nat) :
    (scaled offset size).ty.isPointer = false := by
  have hty : offset.ty.isPointer = false := by
    cases hty : offset.ty <;> simp_all [Ty.pointee?, Ty.isPointer]
  rw [scaled]
  split
  · exact hty
  · cases hint : offset.ty <;>
      simp_all [Expr.ty, BinOp.result, BinOp.isComparison, BinOp.condition?, Ty.isPointer]

theorem result_scaledOperands (op : BinOp) (lhs rhs : Expr) :
    op.result (scaledOperands op lhs rhs).1.ty (scaledOperands op lhs rhs).2.ty =
      op.result lhs.ty rhs.ty := by
  rw [scaledOperands]
  split
  case isTrue => rfl
  case isFalse hcompare =>
    split
    case h_1 pointee hl hr =>
      have hptr : lhs.ty.isPointer = true := by
        cases hty : lhs.ty <;> simp_all [Ty.pointee?, Ty.isPointer]
      simp only [BinOp.result, hcompare, hptr, if_true, Bool.false_eq_true, if_false]
    case h_2 pointee hl hr =>
      have hptr : rhs.ty.isPointer = true := by
        cases hty : rhs.ty <;> simp_all [Ty.pointee?, Ty.isPointer]
      have hint : lhs.ty.isPointer = false := by
        cases hty : lhs.ty <;> simp_all [Ty.pointee?, Ty.isPointer]
      simp only [BinOp.result, hcompare, hptr, hint, scaled_isPointer hl, if_true,
        Bool.false_eq_true, if_false]
    case h_3 => rfl

theorem scaledOperands_wellTyped (op : BinOp) {lhs rhs : Expr} (hl : lhs.WellTyped)
    (hr : rhs.WellTyped) :
    (scaledOperands op lhs rhs).1.WellTyped ∧ (scaledOperands op lhs rhs).2.WellTyped := by
  rw [scaledOperands]
  split
  · exact ⟨hl, hr⟩
  · split
    · exact ⟨hl, scaled_wellTyped hr _⟩
    · exact ⟨scaled_wellTyped hl _, hr⟩
    · exact ⟨hl, hr⟩

end Build

namespace Expr

theorem Built.wellTyped {expr : Expr} (h : Built expr) : expr.WellTyped := by
  induction h with
  | literal value => exact rfl
  | var name ty => trivial
  | str text => exact rfl
  | empty => exact rfl
  | call callee ty hargs ih => exact allWellTyped_iff.mpr ih
  | deref hpointer h ih =>
    obtain ⟨-, rfl⟩ := Build.deref_ok h
    exact ⟨ih, rfl⟩
  | @binary op lhs rhs expr hlhs hrhs h ihl ihr =>
    obtain ⟨-, rfl⟩ := Build.binary_ok h
    obtain ⟨hl, hr⟩ := Build.scaledOperands_wellTyped op ihl ihr
    exact ⟨hl, hr, (Build.result_scaledOperands op lhs rhs).symm⟩
  | unary hoperand h ih =>
    obtain ⟨-, rfl⟩ := Build.unary_ok h
    exact ⟨ih, rfl⟩
  | array helements h ih =>
    rw [Build.array_ok h]
    exact ⟨allWellTyped_iff.mpr ih, rfl⟩

/-! ## Values of a type -/

end Expr

structure Context.Typed (ctx : Context) : Prop where
  value : ∀ {name ty v}, ctx.value name ty = some v → ty.width.low v = v
  load : ∀ {width a v}, ctx.load width a = some v → width.low v = v

namespace Expr

theorem low_eval {ctx : Context} (htyped : ctx.Typed) {expr : Expr} (h : expr.WellTyped) {v : Word}
    (hv : expr.eval ctx = some v) : expr.ty.width.low v = v := by
  cases expr with
  | literal value ty =>
    cases hv
    cases h
    cases value with
    | int value => rfl
    | char value =>
      simp only [Expr.ty, Literal.ty, Literal.bits]
      change Width.low .byte _ = _
      simp [Width.low]
  | var name ty => exact htyped.value hv
  | deref pointer ty =>
    obtain ⟨a, -, hload⟩ := Option.bind_eq_some_iff.mp hv
    exact htyped.load hload
  | call callee args ty =>
    rw [eval] at hv
    split at hv
    · cases hv
    · obtain ⟨values, -, hcall⟩ := Option.bind_eq_some_iff.mp hv
      obtain ⟨result, -, hresult⟩ := Option.bind_eq_some_iff.mp hcall
      exact of_decide_eq_true (Option.filter_eq_some_iff.mp hresult).2
  | binary op lhs rhs ty =>
    obtain ⟨a, -, hmap⟩ := Option.bind_eq_some_iff.mp hv
    obtain ⟨b, -, rfl⟩ := Option.map_eq_some_iff.mp hmap
    exact Width.low_low _ _
  | unary op operand ty =>
    obtain ⟨-, hty⟩ := h
    subst hty
    cases op with
    | addrOf => rfl
    | not => rfl
    | deref =>
      obtain ⟨a, -, hload⟩ := Option.bind_eq_some_iff.mp hv
      exact htyped.load hload
    | neg =>
      obtain ⟨a, -, rfl⟩ := Option.map_eq_some_iff.mp hv
      exact Width.low_low _ _
    | bitNot =>
      obtain ⟨a, -, rfl⟩ := Option.map_eq_some_iff.mp hv
      exact Width.low_low _ _
  | array elements ty => cases hv
  | str text ty =>
    cases h
    rfl
  | empty ty => cases hv

end Expr

end ArmBackend
