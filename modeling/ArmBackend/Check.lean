import ArmBackend.Error
import ArmBackend.Expr

/-!
# Type checks

The rules that both construction and lowering enforce.
-/

namespace ArmBackend.Check

def binary (op : BinOp) (lhs rhs : Ty) : Except CompileError Unit :=
  if op.accepts lhs rhs then .ok () else .error (.typeViolation (.binaryOperands op lhs rhs))

def unary (op : UnOp) (operand : Ty) : Except CompileError Unit :=
  if op.accepts operand then .ok () else .error (.typeViolation (.unaryOperand op operand))

theorem binary_eq_ok {op : BinOp} {lhs rhs : Ty} :
    binary op lhs rhs = .ok () ↔ op.accepts lhs rhs = true := by
  rw [binary]
  split <;> simp [*]

theorem unary_eq_ok {op : UnOp} {operand : Ty} :
    unary op operand = .ok () ↔ op.accepts operand = true := by
  rw [unary]
  split <;> simp [*]

/-- An expression of type void has no value to use. -/
def value (expr : Expr) : Except CompileError Unit :=
  if expr.ty.isVoid then .error (.typeViolation .voidValue) else .ok ()

/-- An array initialises a pointer and nothing else. -/
def arrayTarget (ty : Ty) (value : Expr) : Except CompileError Unit :=
  if value.isArray && !ty.isPointer then .error (.typeViolation (.arrayIntoScalar ty)) else .ok ()

/-- An array has no value that a pointer could receive. -/
def storedValue (value : Expr) : Except CompileError Unit :=
  if value.isArray then .error (.typeViolation .arrayThroughPointer) else .ok ()

end ArmBackend.Check
