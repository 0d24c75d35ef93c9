import ArmBackend.Check

/-!
# Checked expressions

Constructors that check the types of their operands and compute the type of the result. Pointer
arithmetic is scaled here: beside a pointer, an integer operand is multiplied by the size of what
the pointer points to.
-/

namespace ArmBackend.Build

def literal (value : Literal) : Expr := .literal value value.ty

def int (value : Int) : Expr := literal (.int (.ofInt 64 value))

def char (value : Byte) : Expr := literal (.char value)

def empty : Expr := .empty .void

def var (name : String) (ty : Ty) : Expr := .var name ty

/-- A string constant is a pointer to its first character. -/
def str (text : String) : Expr := .str text (.ptr .char)

/-- A call of a function that returns `ty`. -/
def call (callee : String) (ty : Ty) (args : List Expr) : Expr := .call callee args ty

/-- A system trap: the trap number, then the arguments. -/
def trap (args : List Expr) : Expr := call trapCallee .int args

/-- What a pointer of type `ty` points to. -/
def pointee (ty : Ty) : Except CompileError Ty :=
  if UnOp.deref.accepts ty then .ok (UnOp.deref.result ty)
  else .error (.typeViolation (.dereference ty))

def deref (pointer : Expr) : Except CompileError Expr := do
  return .deref pointer (← pointee pointer.ty)

/-- An integer in units of `size` bytes. -/
def scaled (offset : Expr) (size : Nat) : Expr :=
  if size = 1 then offset
  else .binary (.arith .mul) offset (int size) (BinOp.result (.arith .mul) offset.ty .int)

/-- The operands of an operator after scaling. -/
def scaledOperands (op : BinOp) (lhs rhs : Expr) : Expr × Expr :=
  if op.isComparison then (lhs, rhs)
  else
    match lhs.ty.pointee?, rhs.ty.pointee? with
    | some pointee, none => (lhs, scaled rhs pointee.size)
    | none, some pointee => (scaled lhs pointee.size, rhs)
    | _, _ => (lhs, rhs)

def binary (op : BinOp) (lhs rhs : Expr) : Except CompileError Expr := do
  Check.binary op lhs.ty rhs.ty
  let (left, right) := scaledOperands op lhs rhs
  return .binary op left right (op.result lhs.ty rhs.ty)

def unary (op : UnOp) (operand : Expr) : Except CompileError Expr := do
  Check.unary op operand.ty
  if op = .addrOf && !operand.isVar then throw (.typeViolation .addressOfValue)
  return .unary op operand (op.result operand.ty)

/-- An array of elements of type `ty`. Its value is a pointer to the first. -/
def array (ty : Ty) (elements : List Expr) : Except CompileError Expr := do
  unless ty.storable do throw (.typeViolation (.elementType ty))
  if let some element := elements.find? (·.ty.isVoid) then
    throw (.typeViolation (.elementWithoutValue element.ty))
  return .array elements (.ptr ty)

end ArmBackend.Build
