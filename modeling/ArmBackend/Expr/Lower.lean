import ArmBackend.Arguments
import ArmBackend.Assembly.Operation
import ArmBackend.Assembly.Saves
import ArmBackend.Check
import ArmBackend.Session

/-!
# Lowering expressions

Code that leaves the value of an expression in a target. Arguments that call out are evaluated into
temporaries before any argument register is written. The others are evaluated into their registers, and
the temporaries are copied in last. The live temporaries are saved around the branch.
-/

namespace ArmBackend

open Session (onFrame)

/-- An expression as its parent sees it: its type, whether it calls out, and its lowering. -/
structure Operand where
  ty : Ty
  calls : Bool
  lower : Reservation → CompileM Code

namespace Lower

/-- The immediate of the trap instruction. -/
def trapImm : Nat := 0x80

/-! ## Operators and addresses -/

def binary (op : BinOp) (ty : Ty) (target : Reservation) (lhs rhs : Operand) : CompileM Code := do
  Check.binary op lhs.ty rhs.ty
  let left ← onFrame (Frame.reserveTemp ty)
  let leftCode ← lhs.lower left
  let right ← onFrame (Frame.reserveTemp rhs.ty)
  let rightCode ← rhs.lower right
  let code ← op.code target left right
  onFrame Frame.releaseTemp
  onFrame Frame.releaseTemp
  return leftCode ++ rightCode ++ code

/-- A register target holds the operand as well. A slot may be too narrow for it. -/
def unary (op : UnOp) (target : Reservation) (operand : Operand) : CompileM Code := do
  Check.unary op operand.ty
  match target.register? with
  | some reg =>
    let res := Reservation.ofReg operand.ty reg
    let operandCode ← operand.lower res
    let code ← op.code target res
    return operandCode ++ code
  | none =>
    let res ← onFrame (Frame.reserveTemp operand.ty)
    let operandCode ← operand.lower res
    let code ← op.code target res
    onFrame Frame.releaseTemp
    return operandCode ++ code

/-- Takes an address that is built in a register to the target. -/
def address (target : Reservation) (build : Register → Code) : Except CompileError Code := do
  let reg := target.stagingRegister
  return build reg ++ (← Code.copy (target.inRegister reg) target)

/-- The address of a variable's slot. -/
def addressOf (target : Reservation) : Expr → CompileM Code
  | .var name _ => do
    let slot ← onFrame (Frame.resolve name)
    address target (Code.frameAddress · slot.offset)
  | _ => throw (.typeViolation .addressOfValue)

/-- The address of a string constant. -/
def string (target : Reservation) (text : String) : CompileM Code := do
  let label ← Session.intern text
  address target (Code.labelAddress · label)

/-! ## Arrays -/

/-- Slots for `count` elements, newest first. -/
def reserveElements (ty : Ty) : Nat → List Slot → CompileM (List Slot)
  | 0, slots => return slots
  | count + 1, slots => do
    let slot ← onFrame (Frame.reserveVariable ty)
    reserveElements ty count (slot :: slots)

def elements : List Slot → List Operand → CompileM Code
  | slot :: slots, element :: rest => do
    let code ← element.lower slot.reservation
    let restCode ← elements slots rest
    return code ++ restCode
  | _, _ => return []

/-- The last element takes the first slot, so that the elements lie at ascending addresses. -/
def array (ty : Ty) (target : Reservation) (operands : List Operand) : CompileM Code := do
  match ty.pointee? with
  | none => throw (.internal .arrayWithoutPointerType)
  | some elementTy =>
    let slots ← reserveElements elementTy operands.length []
    let code ← elements slots operands
    match slots with
    | [] => throw (.typeViolation .emptyArray)
    | first :: _ =>
      let addressCode ← address target (Code.frameAddress · first.offset)
      return code ++ addressCode

/-! ## Calls -/

/-- Evaluates the arguments that call out into temporaries, which are listed with the registers
that they are meant for. -/
def shield : List Operand → List Register → CompileM (Code × List (Reservation × Register))
  | arg :: args, reg :: regs => do
    if arg.calls then
      let res ← onFrame (Frame.reserveTemp arg.ty)
      let code ← arg.lower res
      let (restCode, shielded) ← shield args regs
      return (code ++ restCode, (res, reg) :: shielded)
    else shield args regs
  | _, _ => return ([], [])

/-- Evaluates the arguments that do not call out into their registers. -/
def direct : List Operand → List Register → CompileM Code
  | arg :: args, reg :: regs => do
    if arg.calls then direct args regs
    else
      let code ← arg.lower (.ofReg arg.ty reg)
      let restCode ← direct args regs
      return code ++ restCode
  | _, _ => return []

def unshield : List (Reservation × Register) → Except CompileError Code
  | [] => .ok []
  | (res, reg) :: shielded => do return (← Code.copy res (res.inRegister reg)) ++ (← unshield shielded)

def releaseTemps : Nat → CompileM Unit
  | 0 => return ()
  | count + 1 => do
    onFrame Frame.releaseTemp
    releaseTemps count

/-- Puts each argument into its register. No call overwrites a register that is already set. -/
def arguments (args : List Operand) (regs : List Register) : CompileM Code := do
  let (shieldCode, shielded) ← shield args regs
  let directCode ← direct args regs
  let copyCode ← unshield shielded
  releaseTemps shielded.length
  return shieldCode ++ directCode ++ copyCode

/-- Takes a result of type `ty` to the target, if there is one. -/
def result (ty : Ty) : Option Reservation → Except CompileError Code
  | some target => Code.copy (.ofReg ty .result) target
  | none => .ok []

def checkArguments (callee : String) : List Param → List Operand → Except CompileError Unit
  | param :: params, arg :: args =>
    if param.ty.accepts arg.ty then checkArguments callee params args
    else .error (.typeViolation (.argumentType param.name callee param.ty arg.ty))
  | _, _ => .ok ()

/-- What a call has to satisfy. A call without a target drops its result. -/
def checkCall (signature : Signature) (args : List Operand) (target : Option Reservation) :
    Except CompileError Unit := do
  if signature.params.length ≠ args.length then
    throw (.typeViolation (.argumentCount signature.name signature.params.length args.length))
  checkArguments signature.name signature.params args
  if target.isSome && signature.returnTy.isVoid then
    throw (.typeViolation (.voidResult signature.name))

/-- A call of a function. -/
def functionCall (callee : String) (args : List Operand) (target : Option Reservation) :
    CompileM Code := do
  let signature ← Session.signatureOf callee
  checkCall signature args target
  modify (Session.markUsed callee)
  let regs ← argRegisters args.length
  let argCode ← arguments args regs
  let live ← onFrame (Frame.liveTempRegs <$> get)
  let label := (← get).options.functionLabel callee
  modify Session.recordCall
  modify (Session.recordSaves live.length)
  let resultCode ← result signature.returnTy target
  return argCode ++ Code.saveRegs live ++ Code.ofInstrs [.bl label] ++ Code.restoreRegs live ++
    resultCode

/-- Puts the trap number into its register after the arguments are in place, which may overwrite
it. A number that calls out is evaluated before them. -/
def trapOperands (number : Operand) (args : List Operand) (regs : List Register) : CompileM Code := do
  let target := Reservation.ofReg .int .trapNumber
  if number.calls then
    let res ← onFrame (Frame.reserveTemp .int)
    let numberCode ← number.lower res
    let argCode ← arguments args regs
    let copyCode ← Code.copy res target
    onFrame Frame.releaseTemp
    return numberCode ++ argCode ++ copyCode
  else
    let argCode ← arguments args regs
    let numberCode ← number.lower target
    return argCode ++ numberCode

/-- A system trap. -/
def trap (operands : List Operand) (target : Option Reservation) : CompileM Code := do
  match operands with
  | [] => throw (.typeViolation .missingTrapNumber)
  | number :: args =>
    let regs ← argRegisters args.length
    let code ← trapOperands number args regs
    modify Session.recordCall
    let resultCode ← result .int target
    return code ++ Code.ofInstrs [.svc trapImm] ++ resultCode

def call (callee : String) (args : List Operand) (target : Option Reservation) : CompileM Code :=
  if callee = trapCallee then trap args target else functionCall callee args target

end Lower

/-! ## All expressions -/

namespace Expr

mutual

/-- Lowers an expression so that its value ends up in `target`. -/
def lower : Expr → Reservation → CompileM Code
  | .literal value _, target => Code.putConstant target value.bits
  | .var name _, target => do
    let slot ← onFrame (Frame.resolve name)
    Code.copy slot.reservation target
  | .deref pointer _, target =>
    Lower.unary .deref target ⟨pointer.ty, pointer.containsCalls, pointer.lower⟩
  | .call callee args _, target => Lower.call callee (operands args) (some target)
  | .binary op lhs rhs ty, target =>
    Lower.binary op ty target ⟨lhs.ty, lhs.containsCalls, lhs.lower⟩
      ⟨rhs.ty, rhs.containsCalls, rhs.lower⟩
  | .unary op operand _, target =>
    if op = .addrOf then Lower.addressOf target operand
    else Lower.unary op target ⟨operand.ty, operand.containsCalls, operand.lower⟩
  | .array elements ty, target => Lower.array ty target (operands elements)
  | .str text _, target => Lower.string target text
  | .empty _, _ => return []

def operands : List Expr → List Operand
  | [] => []
  | expr :: exprs => ⟨expr.ty, expr.containsCalls, expr.lower⟩ :: operands exprs

end

/-- What the parent of an expression sees of it. -/
def operand (expr : Expr) : Operand :=
  ⟨expr.ty, expr.containsCalls, expr.lower⟩

theorem operands_eq_map (exprs : List Expr) : operands exprs = exprs.map operand := by
  induction exprs with
  | nil => rfl
  | cons expr exprs ih => simp only [operands, operand, ih, List.map_cons]

theorem forall_operands {P : Operand → Prop} {exprs : List Expr} :
    (∀ operand ∈ operands exprs, P operand) ↔ ∀ expr ∈ exprs, P expr.operand := by
  rw [operands_eq_map, List.forall_mem_map]

/-- Lowers an expression on a frame of its own that holds the given variables. -/
def lowerAlone (locals : List Param) (target : Reservation) (expr : Expr) : CompileM Code := do
  let (code, _) ← Session.inFrame do
    locals.forM fun var => discard (onFrame (Frame.addVariable var.ty var.name))
    let code ← expr.lower target
    let live ← onFrame (Frame.temporaries <$> get)
    unless live.isEmpty do throw (.internal .temporariesAfterExpression)
    return code
  return code

end Expr

end ArmBackend
