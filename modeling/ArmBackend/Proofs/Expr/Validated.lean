import ArmBackend.Proofs.Expr.Calls
import ArmBackend.Proofs.Expr.Checked
import Mathlib.Logic.Relation

/-!
# What lowering checks again

Lowering an expression lowers every node of it, whatever types the nodes are said to have, and so checks
every operator. The one node that is not lowered is the variable of which an address is taken. The type that
it is said to have is not looked at.
-/

namespace ArmBackend

def Operand.Lowered (operand : Operand) : Prop :=
  ∃ target σ code τ, (operand.lower target).run σ = (.ok code, τ)

theorem Shielding.lowered {shielded : List Operand} {code : Code} (h : Shielding shielded code) :
    ∀ operand ∈ shielded, operand.Lowered := by
  induction h with
  | nil => exact List.forall_mem_nil _
  | cons _ lowered _ ih => exact List.forall_mem_cons.mpr ⟨⟨_, _, _, _, lowered⟩, ih⟩

theorem Placing.lowered {placed : List (Operand × Register)} {code : Code} (h : Placing placed code) :
    ∀ entry ∈ placed, entry.1.Lowered := by
  induction h with
  | nil => exact List.forall_mem_nil _
  | cons lowered _ _ ih => exact List.forall_mem_cons.mpr ⟨⟨_, _, _, _, lowered⟩, ih⟩

namespace Lower

variable {σ τ : Session} {code : Code} {target : Reservation} {operands : List Operand}
  {regs : List Register}

theorem binary_lowered {op : BinOp} {ty : Ty} {lhs rhs : Operand}
    (h : (binary op ty target lhs rhs).run σ = (.ok code, τ)) : lhs.Lowered ∧ rhs.Lowered := by
  obtain ⟨left, leftCode, right, rightCode, opCode, σ₁, σ₂, σ₃, σ₄, σ₅, -, hleft, -, hright, -⟩ := binary_ok h
  exact ⟨⟨_, _, _, _, hleft⟩, _, _, _, _, hright⟩

theorem unary_lowered {op : UnOp} {operand : Operand}
    (h : (unary op target operand).run σ = (.ok code, τ)) : operand.Lowered := by
  obtain ⟨-, ⟨_, -, _, _, hoperand, -⟩ | ⟨-, _, _, _, _, _, -, hoperand, -⟩⟩ := unary_ok h
  · exact ⟨_, _, _, _, hoperand⟩
  · exact ⟨_, _, _, _, hoperand⟩

theorem elements_lowered {slots : List Slot} (hlength : slots.length = operands.length)
    (h : (elements slots operands).run σ = (.ok code, τ)) : ∀ operand ∈ operands, operand.Lowered := by
  induction operands generalizing slots σ code τ with
  | nil => exact List.forall_mem_nil _
  | cons operand operands ih =>
    cases slots with
    | nil => cases hlength
    | cons slot slots =>
      obtain ⟨elementCode, σ₁, helement, h₁⟩ := StepM.run_bind_eq_ok.mp h
      obtain ⟨restCode, σ₂, hrest, -⟩ := StepM.run_bind_eq_ok.mp h₁
      exact List.forall_mem_cons.mpr ⟨⟨_, _, _, _, helement⟩, ih (Nat.succ.inj hlength) hrest⟩

theorem array_lowered {ty : Ty} (h : (array ty target operands).run σ = (.ok code, τ)) :
    ∀ operand ∈ operands, operand.Lowered := by
  obtain ⟨elementTy, first, slots, elementsCode, addressCode, σ₁, -, hslots, helements, -⟩ := array_ok h
  have hlength : (first :: slots).length = operands.length := by
    simpa using reserveElements_length hslots
  exact elements_lowered hlength helements

theorem arguments_lowered (hexact : ∀ operand ∈ operands, operand.Exact)
    (hlength : regs.length = operands.length) (h : (arguments operands regs).run σ = (.ok code, τ)) :
    ∀ operand ∈ operands, operand.Lowered := by
  intro operand hmem
  cases arguments_staged hexact hlength h with
  | intro shielding placing =>
    cases hcalls : operand.calls with
    | true => exact shielding.lowered operand (List.mem_filter.mpr ⟨hmem, hcalls⟩)
    | false =>
      rw [← List.map_fst_zip (Nat.le_of_eq hlength.symm)] at hmem
      obtain ⟨⟨_, reg⟩, hzip, rfl⟩ := List.mem_map.mp hmem
      exact placing.lowered _ (List.mem_filter.mpr ⟨hzip, by simpa using hcalls⟩)

theorem trapOperands_lowered {number : Operand} (hexact : ∀ operand ∈ operands, operand.Exact)
    (hlength : regs.length = operands.length)
    (h : (trapOperands number operands regs).run σ = (.ok code, τ)) :
    ∀ operand ∈ number :: operands, operand.Lowered := by
  rcases trapOperands_ok h with
    ⟨_, _, _, _, _, _, _, -, -, hnumber, hargs, -⟩ | ⟨_, _, _, -, hargs, hnumber, -⟩
  all_goals
    exact List.forall_mem_cons.mpr ⟨⟨_, _, _, _, hnumber⟩, arguments_lowered hexact hlength hargs⟩

theorem call_lowered {callee : String} {target : Option Reservation}
    (hexact : ∀ operand ∈ operands, operand.Exact)
    (h : (call callee operands target).run σ = (.ok code, τ)) :
    ∀ operand ∈ operands, operand.Lowered := by
  rw [call] at h
  split at h
  · obtain ⟨number, args, regs, _, _, _, rfl, hregs, hcode, -⟩ := trap_ok h
    exact trapOperands_lowered (List.forall_mem_cons.mp hexact).2 (length_of_argRegisters hregs) hcode
  · obtain ⟨_, regs, _, _, _, _, _, -, -, hregs, hcode, -⟩ := functionCall_ok h
    exact arguments_lowered hexact (length_of_argRegisters hregs) hcode

end Lower

namespace Expr

def children : Expr → List Expr
  | .deref operand _ | .unary _ operand _ => [operand]
  | .binary _ lhs rhs _ => [lhs, rhs]
  | .call _ exprs _ | .array exprs _ => exprs
  | .literal .. | .var .. | .str .. | .empty _ => []

def Contains (expr node : Expr) : Prop :=
  Relation.ReflTransGen (fun parent child => child ∈ parent.children) expr node

/-- Whether the operator of a node accepts its operands. What it accepts has a value. -/
def Validated : Expr → Prop
  | .binary op lhs rhs _ =>
    op.accepts lhs.ty rhs.ty = true ∧ lhs.ty.storable = true ∧ rhs.ty.storable = true
  | .unary op operand _ => op.accepts operand.ty = true ∧ operand.ty.storable = true
  | .deref pointer _ => UnOp.deref.accepts pointer.ty = true ∧ pointer.ty.storable = true
  | _ => True

variable {expr node : Expr}

theorem exists_eq_var (h : expr.isVar = true) : ∃ name ty, expr = .var name ty := by
  cases expr with
  | var name ty => exact ⟨name, ty, rfl⟩
  | _ => cases h

theorem lowered_child (h : expr.operand.Lowered) :
    ∀ child ∈ expr.children, child.operand.Lowered ∨ child.isVar = true := by
  obtain ⟨target, σ, code, τ, hlower⟩ := h
  have hexact : ∀ exprs : List Expr, ∀ operand ∈ operands exprs, operand.Exact := fun exprs =>
    forall_operands.mpr fun expr _ => expr.operand_exact
  cases expr with
  | literal | var | str | empty => exact List.forall_mem_nil _
  | deref pointer ty => exact List.forall_mem_singleton.mpr (Or.inl (Lower.unary_lowered hlower))
  | binary op lhs rhs ty =>
    obtain ⟨hlhs, hrhs⟩ := Lower.binary_lowered hlower
    exact List.forall_mem_cons.mpr ⟨Or.inl hlhs, List.forall_mem_singleton.mpr (Or.inl hrhs)⟩
  | call callee args ty =>
    have hargs : ∀ arg ∈ args, arg.operand.Lowered :=
      forall_operands.mp (Lower.call_lowered (hexact args) hlower)
    exact fun child hchild => Or.inl (hargs child hchild)
  | array elements ty =>
    have helements : ∀ element ∈ elements, element.operand.Lowered :=
      forall_operands.mp (Lower.array_lowered hlower)
    exact fun child hchild => Or.inl (helements child hchild)
  | unary op operand ty =>
    refine List.forall_mem_singleton.mpr ?_
    simp only [Expr.operand, lower] at hlower
    split at hlower
    · obtain ⟨name, varTy, _, rfl, -⟩ := Lower.addressOf_ok hlower
      exact Or.inr rfl
    · exact Or.inl (Lower.unary_lowered hlower)

/-- Every node of a lowered expression is lowered, but for the variables of which an address is taken. -/
theorem Contains.lowered (h : expr.Contains node) (hexpr : expr.operand.Lowered) :
    node.operand.Lowered ∨ node.isVar = true := by
  induction h with
  | refl => exact Or.inl hexpr
  | @tail parent child _ hchild ih =>
    rcases ih with hlowered | hvar
    · exact lowered_child hlowered child hchild
    · obtain ⟨name, ty, rfl⟩ := exists_eq_var hvar
      exact absurd hchild List.not_mem_nil

theorem validated_of_lowered (h : node.operand.Lowered) (hne : ∀ operand ty, node ≠ .unary .addrOf operand ty) :
    node.Validated := by
  obtain ⟨target, σ, code, τ, hlower⟩ := h
  cases node with
  | binary op lhs rhs ty =>
    obtain ⟨_, _, _, _, _, _, _, _, _, _, -, -, -, -, -, -, -, haccepts, -⟩ := Lower.binary_ok hlower
    obtain ⟨hlhs, hrhs, -⟩ := BinOp.storable_of_accepts haccepts
    exact ⟨haccepts, hlhs, hrhs⟩
  | deref pointer ty =>
    obtain ⟨haccepts, -⟩ := Lower.unary_ok hlower
    exact ⟨haccepts, (UnOp.storable_of_accepts haccepts).1⟩
  | unary op operand ty =>
    have hop : op ≠ .addrOf := fun h => hne operand ty (h ▸ rfl)
    simp only [Expr.operand, lower, if_neg hop] at hlower
    obtain ⟨haccepts, -⟩ := Lower.unary_ok hlower
    exact ⟨haccepts, (UnOp.storable_of_accepts haccepts).1⟩
  | _ => trivial

theorem isVar_of_lowered_addrOf {operand : Expr} {ty : Ty}
    (h : (Expr.unary .addrOf operand ty).operand.Lowered) : operand.isVar = true := by
  obtain ⟨target, σ, code, τ, hlower⟩ := h
  simp only [Expr.operand, lower, if_true] at hlower
  obtain ⟨name, varTy, _, rfl, -⟩ := Lower.addressOf_ok hlower
  rfl

theorem validated_addrOf_iff {operand : Expr} {ty : Ty} :
    (Expr.unary .addrOf operand ty).Validated ↔ operand.ty.storable = true := by
  refine ⟨And.right, fun h => ⟨?_, h⟩⟩
  cases hty : operand.ty with
  | void | custom => rw [hty] at h; cases h
  | _ => rfl

/-- In an expression that is lowered, every operator has been checked against the types of its operands, but
for address-of, whose operand is a variable of any type. All the operators accept their operands just if no
address is taken of a variable that is said to have no value. -/
theorem lower_validates_iff {target : Reservation} {σ τ : Session} {code : Code}
    (h : (expr.lower target).run σ = (.ok code, τ)) :
    (∀ node, expr.Contains node → (∀ operand ty, node ≠ .unary .addrOf operand ty) → node.Validated) ∧
    (∀ operand ty, expr.Contains (.unary .addrOf operand ty) → operand.isVar = true) ∧
    ((∀ node, expr.Contains node → node.Validated) ↔
      ∀ operand ty, expr.Contains (.unary .addrOf operand ty) → operand.ty.storable = true) := by
  have hlowered : ∀ node, expr.Contains node → node.isVar = false → node.operand.Lowered :=
    fun node hnode hvar => (hnode.lowered ⟨_, _, _, _, h⟩).resolve_right (Bool.eq_false_iff.mp hvar)
  have hchecked : ∀ node, expr.Contains node → (∀ operand ty, node ≠ .unary .addrOf operand ty) →
      node.Validated := by
    intro node hnode hne
    cases hvar : node.isVar with
    | true =>
      obtain ⟨name, ty, rfl⟩ := exists_eq_var hvar
      trivial
    | false => exact validated_of_lowered (hlowered node hnode hvar) hne
  refine ⟨hchecked, fun operand ty hnode => isVar_of_lowered_addrOf (hlowered _ hnode rfl), ?_⟩
  constructor
  · exact fun hall operand ty hnode => validated_addrOf_iff.mp (hall _ hnode)
  · intro haddresses node hnode
    by_cases haddress : ∃ operand ty, node = .unary .addrOf operand ty
    · obtain ⟨operand, ty, rfl⟩ := haddress
      exact validated_addrOf_iff.mpr (haddresses operand ty hnode)
    · exact hchecked node hnode fun operand ty heq => haddress ⟨operand, ty, heq⟩

theorem lower_validates_iff_sum :
    let expr : Expr := .binary (.arith .add) (.literal (.int 2) .int) (.literal (.int 3) .int) .int
    ∃ code τ, (expr.lower (.ofReg .int .x0)).run { Session.start {} with frames := [{}] } = (.ok code, τ) ∧
      expr.Validated := by
  intro expr
  have hrun : (expr.lower (.ofReg .int .x0)).run { Session.start {} with frames := [{}] } = (.ok _, _) := rfl
  exact ⟨_, _, hrun, (lower_validates_iff hrun).1 expr .refl nofun⟩

/-- The address of a variable that is said to be void is lowered. -/
theorem lower_addrOf_void :
    let expr : Expr := .unary .addrOf (.var "x" .void) (.ptr .int)
    let frame : Frame := ((Frame.addVariable .int "x").run {}).2
    (∃ τ, (expr.lower (.ofReg (.ptr .int) .x0)).run { Session.start {} with frames := [frame] } =
        (.ok (Code.ofInstrs [.subImm .x0 .framePointer 8]), τ)) ∧
      ¬ expr.Validated :=
  ⟨⟨_, rfl⟩, fun h => absurd h.1 (by decide)⟩

end Expr

end ArmBackend
