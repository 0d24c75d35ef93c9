import ArmBackend.Expr.Build
import ArmBackend.Stmt

/-!
# Checked statements
-/

namespace ArmBackend.Build

def variableType (ty : Ty) : Except CompileError Unit :=
  if ty.isVoid then .error (.typeViolation .voidVariable) else .ok ()

def declare (ty : Ty) (name : String) : Except CompileError Stmt := do
  variableType ty
  return .declare ty name

def init (ty : Ty) (name : String) (value : Expr) : Except CompileError Stmt := do
  variableType ty
  Check.arrayTarget ty value
  Check.value value
  return .init ty name value

def assign (name : String) (value : Expr) : Except CompileError Stmt := do
  Check.value value
  return .assign name value

def store (pointer value : Expr) : Except CompileError Stmt := do
  let _ ← pointee pointer.ty
  Check.value value
  Check.storedValue value
  return .store pointer value

def ret (value : Expr) : Stmt := .ret value

def callStmt (callee : String) (args : List Expr) : Stmt := .call callee args

def trapStmt (args : List Expr) : Stmt := callStmt trapCallee args

def ifElse (cond : Expr) (thenBlock elseBlock : List Stmt) : Except CompileError Stmt := do
  Check.value cond
  return .ifElse cond thenBlock elseBlock

def loop (cond : Expr) (body : List Stmt) : Except CompileError Stmt := do
  Check.value cond
  return .loop cond body

end ArmBackend.Build
