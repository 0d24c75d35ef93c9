import ArmBackend.Operator

/-!
# Errors

Every way in which compilation can fail, as a cause, and the wording of each cause.
-/

namespace ArmBackend

/-- The statement that leaves a loop or its current iteration. -/
inductive LoopExit where
  | breakLoop
  | continueLoop
deriving DecidableEq

def LoopExit.keyword : LoopExit → String
  | .breakLoop => "break"
  | .continueLoop => "continue"

/-! ## Causes -/

/-- A program that breaks the rules of the type system. -/
inductive TypeFault where
  | binaryOperands (op : BinOp) (lhs rhs : Ty)
  | unaryOperand (op : UnOp) (operand : Ty)
  /-- The address of something else than a variable. -/
  | addressOfValue
  | dereference (ty : Ty)
  /-- An assignment through something else than a pointer to a value. -/
  | storeTarget (ty : Ty)
  | elementType (ty : Ty)
  | elementWithoutValue (ty : Ty)
  | emptyArray
  | arrayIntoScalar (ty : Ty)
  | arrayThroughPointer
  | voidVariable
  | voidValue
  /-- A slot for a type that has no size. -/
  | unsizedSlot (ty : Ty)
  /-- A temporary for a type that has no size. -/
  | unsizedTemporary (ty : Ty)
  | argumentCount (callee : String) (expected actual : Nat)
  | argumentType (param callee : String) (expected actual : Ty)
  | voidResult (callee : String)
  | missingTrapNumber
  | missingReturnValue (function : String) (ty : Ty)
  | unexpectedReturnValue (function : String)
  | outsideLoop (exit : LoopExit)
  /-- A fault found by a front end, in its own words. -/
  | stated (reason : String)
deriving DecidableEq

/-- Something the back end knowingly does not handle. -/
inductive Limit where
  /-- More arguments than the `registers` that carry them. -/
  | stackArguments (registers : Nat)
  | stated (feature : String)
deriving DecidableEq

inductive VariableAction where
  | reserve
  | release
deriving DecidableEq

/-- A broken invariant of the back end. -/
inductive Defect where
  /-- A variable is reserved or released below `temporaries` live temporaries. -/
  | variableBelowTemporaries (action : VariableAction) (temporaries : Nat)
  | noVariable
  | noTemporary
  | slotReleasedTwice
  | positionUnderflow
  | noFrame
  | constantIntoUnassigned
  | copyFromUnassigned
  | copyIntoUnassigned
  | arrayWithoutPointerType
  | addressOfAsValue
  | temporariesAfterFunction (temporaries : Nat) (function : String)
  | temporariesAfterExpression
  | stated (reason : String)
deriving DecidableEq

inductive CompileError where
  /-- A second signature of a function that disagrees with the first. -/
  | signatureConflict (function : String)
  | redefinition (function : String)
  | undefinedFunction (function : String)
  | undefinedVariable (name : String)
  | typeViolation (fault : TypeFault)
  | unsupported (limit : Limit)
  | internal (defect : Defect)
deriving DecidableEq

/-- Who has to act on an error. -/
inductive ErrorKind where
  /-- The program is wrong. -/
  | user
  /-- The program uses what is not handled. -/
  | limitation
  /-- The back end is wrong. -/
  | internal
deriving DecidableEq

def CompileError.kind : CompileError → ErrorKind
  | .internal _ => .internal
  | .unsupported _ => .limitation
  | _ => .user

/-! ## Wording -/

def TypeFault.message : TypeFault → String
  | .binaryOperands op lhs rhs => s!"Can't apply binary operator {op} to ({lhs}) and ({rhs})"
  | .unaryOperand op operand => s!"Can't apply unary operator {op} to ({operand})"
  | .addressOfValue => "Can only take the address of a named variable"
  | .dereference ty => s!"Can't dereference non-pointer type ({ty})"
  | .storeTarget ty => s!"Tried to dereference non-pointer type ({ty})"
  | .elementType ty => s!"Can't build an array of ({ty})"
  | .elementWithoutValue ty => s!"Array element of type ({ty}) has no value"
  | .emptyArray => "Array literal has no elements"
  | .arrayIntoScalar ty => s!"Can't assign array to variable of type ({ty})"
  | .arrayThroughPointer => "an array literal cannot be stored through a pointer"
  | .voidVariable => "Can't declare variable with void type"
  | .voidValue => "Expression of type (void) used as a value"
  | .unsizedSlot ty => s!"cannot allocate storage for a value of type {ty}"
  | .unsizedTemporary ty => s!"an expression of type {ty} has no value to hold"
  | .argumentCount callee expected actual =>
    s!"{callee} expects {expected} argument(s), got {actual}"
  | .argumentType param callee expected actual =>
    s!"Argument {param} of {callee} expects ({expected}), got ({actual})"
  | .voidResult callee => s!"{callee} returns void and has no value"
  | .missingTrapNumber => "svc needs a trap number"
  | .missingReturnValue function ty => s!"{function} must return a value of type ({ty})"
  | .unexpectedReturnValue function => s!"{function} returns void but a value was given"
  | .outsideLoop exit => s!"{exit.keyword} outside of a loop"
  | .stated reason => reason

def Limit.message : Limit → String
  | .stackArguments registers =>
    s!"more than {registers} arguments (stack-passed arguments)"
  | .stated feature => feature

def VariableAction.text : VariableAction → String
  | .reserve => "reserve"
  | .release => "unreserve"

def Defect.message : Defect → String
  | .variableBelowTemporaries action temporaries =>
    s!"cannot {action.text} a variable while {temporaries} expression reservation(s) are outstanding"
  | .noVariable => "no variable reservation to release"
  | .noTemporary => "no expression reservation to release"
  | .slotReleasedTwice => "stack slot released twice"
  | .positionUnderflow => "stack position underflow"
  | .noFrame => "no active stack frame"
  | .constantIntoUnassigned => "tried to materialize a constant into an unassigned reservation"
  | .copyFromUnassigned => "tried to copy from an unassigned reservation"
  | .copyIntoUnassigned => "tried to copy into an unassigned reservation"
  | .arrayWithoutPointerType => "array literal without a pointer type"
  | .addressOfAsValue => "address-of lowered as a value operation"
  | .temporariesAfterFunction temporaries function =>
    s!"{temporaries} expression reservation(s) outstanding after {function}"
  | .temporariesAfterExpression => "expression reservations leaked"
  | .stated reason => reason

def CompileError.message : CompileError → String
  | .signatureConflict function => s!"Tried to redeclare function {function} with different types"
  | .redefinition function => s!"Tried to redefine function {function}"
  | .undefinedFunction function => s!"Function {function} is not declared"
  | .undefinedVariable name => s!"Undefined variable: {name}"
  | .typeViolation fault => s!"Type violation: {fault.message}"
  | .unsupported limit => s!"Unsupported: {limit.message}"
  | .internal defect => s!"Internal compiler error: {defect.message}"

end ArmBackend
