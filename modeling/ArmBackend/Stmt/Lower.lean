import ArmBackend.Expr.Lower

/-!
# Lowering statements

Each statement is lowered once, in the order of the text. Conditions are evaluated into x16 and
compared with 0. A return statement branches to the one place where its function returns.
-/

namespace ArmBackend

open Session (onFrame)

namespace Lower

/-- An expression that has to have a value. -/
def value (target : Reservation) (expr : Expr) : CompileM Code := do
  Check.value expr
  expr.lower target

/-- Evaluates a condition and compares it with 0. -/
def condition (cond : Expr) : CompileM Code := do
  let code ← value (.ofReg cond.ty .staging) cond
  return code ++ Code.ofInstrs [.cmpImm .staging 0]

def init (ty : Ty) (name : String) (expr : Expr) : CompileM Code := do
  Check.arrayTarget ty expr
  let slot ← onFrame (Frame.addVariable ty name)
  value slot.reservation expr

/-- The value is complete before the variable changes. -/
def assign (name : String) (expr : Expr) : CompileM Code := do
  let slot ← onFrame (Frame.resolve name)
  let temp ← onFrame (Frame.reserveTemp slot.ty)
  let code ← value temp expr
  let copyCode ← Code.copy temp slot.reservation
  onFrame Frame.releaseTemp
  return code ++ copyCode

/-- What a store writes through a pointer of type `ty`. -/
def storedTy (ty : Ty) : Except CompileError Ty :=
  match ty.pointee? with
  | some pointee => if pointee.storable then .ok pointee else .error (.typeViolation (.storeTarget ty))
  | none => .error (.typeViolation (.storeTarget ty))

/-- The pointer and the value wait for each other in slots. -/
def store (pointer expr : Expr) : CompileM Code := do
  let pointee ← storedTy pointer.ty
  Check.storedValue expr
  let pointerSlot ← onFrame (Frame.reserveVariable pointer.ty)
  let pointerCode ← value pointerSlot.reservation pointer
  let valueSlot ← onFrame (Frame.reserveVariable pointee)
  let valueCode ← value valueSlot.reservation expr
  let loadPointer ← Code.copy pointerSlot.reservation (pointerSlot.reservation.inRegister .staging)
  let loadValue ← Code.copy valueSlot.reservation (valueSlot.reservation.inRegister .operand)
  onFrame Frame.releaseVariable
  onFrame Frame.releaseVariable
  return pointerCode ++ valueCode ++ loadPointer ++ loadValue ++
    Code.storeThrough .operand .staging pointee

/-- Lowers a returned value into the result register. A value that calls out passes through a
temporary. -/
def returned (ty : Ty) (expr : Expr) : CompileM Code := do
  let target := Reservation.ofReg ty .result
  if expr.containsCalls then
    let temp ← onFrame (Frame.reserveTemp ty)
    let code ← expr.lower temp
    let copyCode ← Code.copy temp target
    onFrame Frame.releaseTemp
    return code ++ copyCode
  else expr.lower target

/-- A return statement of the function with the given signature. -/
def ret (signature : Signature) (expr : Expr) : CompileM Code := do
  let code ← match expr.isEmpty, signature.returnTy.isVoid with
    | true, true => pure []
    | true, false =>
      throw (.typeViolation (.missingReturnValue signature.name signature.returnTy))
    | false, true => throw (.typeViolation (.unexpectedReturnValue signature.name))
    | false, false => returned signature.returnTy expr
  return code ++ Code.ofInstrs [.b (.returnOf signature.name)]

/-- A branch out of the innermost loop, to the label that `label` makes of its id. -/
def leave (exit : LoopExit) (label : Nat → Label) : CompileM Code := do
  match ← onFrame (Frame.currentLoop? <$> get) with
  | some id => return Code.ofInstrs [.b (label id)]
  | none => throw (.typeViolation (.outsideLoop exit))

end Lower

/-! ## All statements -/

namespace Stmt

mutual

/-- Lowers a statement of the function with the given signature. -/
def lower (signature : Signature) : Stmt → CompileM Code
  | .declare ty name => do
    let _ ← onFrame (Frame.addVariable ty name)
    return []
  | .init ty name expr => Lower.init ty name expr
  | .assign name expr => Lower.assign name expr
  | .store pointer expr => Lower.store pointer expr
  | .ret expr => Lower.ret signature expr
  | .call callee args => Lower.call callee (Expr.operands args) none
  | .ifElse cond thenBlock elseBlock => do
    let id ← Session.freshIf
    let condCode ← Lower.condition cond
    let thenCode ← lowerBlock signature thenBlock
    let elseCode ← lowerBlock signature elseBlock
    return condCode ++ .instr (.bCond .eq (.ifFalse id)) :: .label (.ifTrue id) :: thenCode ++
      .instr (.b (.ifExit id)) :: .label (.ifFalse id) :: elseCode ++ [.label (.ifExit id)]
  | .loop cond body => do
    let id ← Session.freshLoop
    let condCode ← Lower.condition cond
    let bodyCode ← Session.inLoop id (lowerBlock signature body)
    return .label (.loopCond id) :: condCode ++
      .instr (.bCond .eq (.loopExit id)) :: .label (.loopBody id) :: bodyCode ++
      [.instr (.b (.loopCond id)), .label (.loopExit id)]
  | .breakLoop => Lower.leave .breakLoop .loopExit
  | .continueLoop => Lower.leave .continueLoop .loopCond

/-- Lowers statements in order. -/
def lowerBlock (signature : Signature) : List Stmt → CompileM Code
  | [] => return []
  | stmt :: stmts => do
    let code ← stmt.lower signature
    let rest ← lowerBlock signature stmts
    return code ++ rest

end

end Stmt

end ArmBackend
