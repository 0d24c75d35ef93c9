import ArmBackend.Proofs.Expr.Eval

/-!
# Checked expressions

Every operator that the checked constructors make accepts its operands, also where scaling has replaced
one of them. So the same check finds no fault with it later.
-/

namespace ArmBackend

/-! ## Operators -/

theorem BinOp.storable_of_accepts {op : BinOp} {lhs rhs : Ty} (h : op.accepts lhs rhs = true) :
    lhs.storable = true ∧ rhs.storable = true ∧ (op.result lhs rhs).storable = true := by
  have hresult : ∀ {a b : Ty}, a.storable = true → b.storable = true →
      (op.result a b).storable = true := by
    intro a b ha hb
    rw [result]
    split
    · rfl
    · split
      · exact ha
      · split
        · exact hb
        · split
          · exact ha
          · rfl
  cases lhs <;> cases rhs <;> first | exact ⟨rfl, rfl, hresult rfl rfl⟩ | cases h

theorem UnOp.storable_of_accepts {op : UnOp} {operand : Ty} (h : op.accepts operand = true) :
    operand.storable = true ∧ (op.result operand).storable = true := by
  cases op <;> cases operand <;> first | exact ⟨rfl, rfl⟩ | exact ⟨rfl, h⟩ | cases h

theorem BinOp.accepts_pointer {op : BinOp} {pointee other : Ty} (hother : other.pointee? = none) :
    (op.accepts (.ptr pointee) other = true →
        other.isInteger = true ∧ op.accepts (.ptr pointee) .int = true) ∧
      (op.accepts other (.ptr pointee) = true →
        other.isInteger = true ∧ op.accepts .int (.ptr pointee) = true) := by
  cases other with
  | ptr other => cases hother
  | int => exact ⟨fun h => ⟨rfl, h⟩, fun h => ⟨rfl, h⟩⟩
  | char => exact ⟨fun h => ⟨rfl, h⟩, fun h => ⟨rfl, h⟩⟩
  | _ => exact ⟨nofun, nofun⟩

namespace Expr

mutual

/-- Whether every operator in the expression accepts its operands. -/
def Checked : Expr → Prop
  | .literal .. | .var .. | .str .. | .empty _ => True
  | .deref pointer _ => pointer.Checked ∧ UnOp.deref.accepts pointer.ty = true
  | .call _ args _ => AllChecked args
  | .binary op lhs rhs _ => lhs.Checked ∧ rhs.Checked ∧ op.accepts lhs.ty rhs.ty = true
  | .unary op operand _ =>
    operand.Checked ∧ op.accepts operand.ty = true ∧ (op = .addrOf → operand.isVar = true)
  | .array elements ty => AllChecked elements ∧ ty.isPointer = true

def AllChecked : List Expr → Prop
  | [] => True
  | expr :: exprs => expr.Checked ∧ AllChecked exprs

end

theorem allChecked_iff {exprs : List Expr} : AllChecked exprs ↔ ∀ expr ∈ exprs, expr.Checked := by
  induction exprs with
  | nil => simp [AllChecked]
  | cons expr exprs ih => simp [AllChecked, ih]

end Expr

namespace Build

theorem scaled_checked {offset : Expr} (h : offset.Checked) (hint : offset.ty.isInteger = true)
    (size : Nat) : (scaled offset size).Checked ∧ (scaled offset size).ty.isInteger = true := by
  rw [scaled]
  split
  · exact ⟨h, hint⟩
  · cases hty : offset.ty with
    | int => exact ⟨⟨h, trivial, by rw [hty]; rfl⟩, rfl⟩
    | char => exact ⟨⟨h, trivial, by rw [hty]; rfl⟩, rfl⟩
    | _ =>
      rw [hty] at hint
      cases hint

theorem accepts_of_isInteger {op : BinOp} {pointee other : Ty} (hother : other.isInteger = true) :
    op.accepts (.ptr pointee) other = op.accepts (.ptr pointee) .int ∧
      op.accepts other (.ptr pointee) = op.accepts .int (.ptr pointee) := by
  cases other with
  | int => exact ⟨rfl, rfl⟩
  | char => exact ⟨rfl, rfl⟩
  | _ => cases hother

theorem eq_ptr_of_pointee? {ty pointee : Ty} (h : ty.pointee? = some pointee) : ty = .ptr pointee := by
  cases ty with
  | ptr other =>
    cases h
    rfl
  | _ => cases h

theorem scaledOperands_checked {op : BinOp} {lhs rhs : Expr} (hl : lhs.Checked) (hr : rhs.Checked)
    (h : op.accepts lhs.ty rhs.ty = true) :
    (scaledOperands op lhs rhs).1.Checked ∧ (scaledOperands op lhs rhs).2.Checked ∧
      op.accepts (scaledOperands op lhs rhs).1.ty (scaledOperands op lhs rhs).2.ty = true := by
  rw [scaledOperands]
  split
  case isTrue => exact ⟨hl, hr, h⟩
  case isFalse =>
    split
    case h_1 pointee hlhs hrhs =>
      rw [eq_ptr_of_pointee? hlhs] at h ⊢
      obtain ⟨hint, hword⟩ := (BinOp.accepts_pointer hrhs).1 h
      obtain ⟨hchecked, hinteger⟩ := scaled_checked hr hint pointee.size
      exact ⟨hl, hchecked, (accepts_of_isInteger hinteger).1.trans hword⟩
    case h_2 pointee hlhs hrhs =>
      rw [eq_ptr_of_pointee? hrhs] at h ⊢
      obtain ⟨hint, hword⟩ := (BinOp.accepts_pointer hlhs).2 h
      obtain ⟨hchecked, hinteger⟩ := scaled_checked hl hint pointee.size
      exact ⟨hchecked, hr, (accepts_of_isInteger hinteger).2.trans hword⟩
    case h_3 => exact ⟨hl, hr, h⟩

theorem unary_isVar {op : UnOp} {operand expr : Expr} (h : unary op operand = .ok expr)
    (hop : op = .addrOf) : operand.isVar = true := by
  obtain ⟨_, -, h₁⟩ := StepM.outcome_bind_eq_ok.mp h
  split at h₁
  case isTrue => cases h₁
  case isFalse hcond => simpa [hop] using hcond

end Build

theorem Expr.Built.checked {expr : Expr} (h : Built expr) : expr.Checked := by
  induction h with
  | literal value => trivial
  | var name ty => trivial
  | str text => trivial
  | empty => trivial
  | call callee ty hargs ih => exact allChecked_iff.mpr ih
  | deref hpointer h ih =>
    obtain ⟨haccepts, rfl⟩ := Build.deref_ok h
    exact ⟨ih, haccepts⟩
  | @binary op lhs rhs expr hlhs hrhs h ihl ihr =>
    obtain ⟨haccepts, rfl⟩ := Build.binary_ok h
    exact Build.scaledOperands_checked ihl ihr haccepts
  | unary hoperand h ih =>
    obtain ⟨haccepts, rfl⟩ := Build.unary_ok h
    exact ⟨ih, haccepts, Build.unary_isVar h⟩
  | array helements h ih =>
    rw [Build.array_ok h]
    exact ⟨allChecked_iff.mpr ih, rfl⟩

end ArmBackend
