import ArmBackend.Assembly.Transfer

/-!
# Operations on reservations

Code that applies an operator to operands that are in place. The result is built in the target's
register, or in x16 on its way to a slot, and cut to a byte where its type is one byte wide.
-/

namespace ArmBackend

namespace Code

/-- Cuts a register to its low byte if `ty` is one byte wide. -/
def truncate (ty : Ty) (reg : Register) : Code :=
  if ty.size = 1 then ofInstrs [.maskByte reg reg] else []

end Code

/-- Code for `target = lhs op rhs`. Division and comparison are signed. -/
def BinOp.code (op : BinOp) (target lhs rhs : Reservation) : Except CompileError Code := do
  let dst := target.stagingRegister
  let setup ← Code.copy lhs (target.inRegister dst)
  let (load, src) ← Code.operandOf rhs
  let compute := Code.ofInstrs <|
    match op with
    | .arith op => [.arith op dst dst src]
    | .compare cond => [.cmp dst src, .cset dst cond]
  let finish ← Code.copy (target.inRegister dst) target
  return setup ++ load ++ compute ++ Code.truncate (op.result lhs.ty rhs.ty) dst ++ finish

/-- Code for `target = op operand`. The address of a variable is no operation on its value. -/
def UnOp.code (op : UnOp) (target operand : Reservation) : Except CompileError Code := do
  let dst := target.stagingRegister
  let (load, src) ← Code.operandOf operand
  let compute ← match op with
    | .neg => pure (Code.ofInstrs [.neg dst src] ++ Code.truncate operand.ty dst)
    | .bitNot => pure (Code.ofInstrs [.mvn dst src] ++ Code.truncate operand.ty dst)
    | .not => pure (Code.ofInstrs [.cmpImm src 0, .cset dst .eq])
    | .deref =>
      match operand.ty.pointee? with
      | some pointee => pure (Code.loadThrough dst src pointee)
      | none => throw (.typeViolation (.dereference operand.ty))
    | .addrOf => throw (.internal .addressOfAsValue)
  let finish ← Code.copy (target.inRegister dst) target
  return load ++ compute ++ finish

end ArmBackend
