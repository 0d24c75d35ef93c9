import ArmBackend.Expr

/-!
# Statements
-/

namespace ArmBackend

inductive Stmt where
  | declare (ty : Ty) (name : String)
  /-- A declaration with an initial value. -/
  | init (ty : Ty) (name : String) (value : Expr)
  | assign (name : String) (value : Expr)
  /-- An assignment to the place that `pointer` points to. -/
  | store (pointer value : Expr)
  | ret (value : Expr)
  | call (callee : String) (args : List Expr)
  | ifElse (cond : Expr) (thenBlock elseBlock : List Stmt)
  | loop (cond : Expr) (body : List Stmt)
  | breakLoop
  | continueLoop

namespace Stmt

mutual

/-- Whether executing the statement can perform a call or a trap. -/
def containsCalls : Stmt → Bool
  | .call .. => true
  | .init _ _ value | .assign _ value | .ret value => value.containsCalls
  | .store pointer value => pointer.containsCalls || value.containsCalls
  | .ifElse cond thenBlock elseBlock =>
    cond.containsCalls || blockContainsCalls thenBlock || blockContainsCalls elseBlock
  | .loop cond body => cond.containsCalls || blockContainsCalls body
  | .declare .. | .breakLoop | .continueLoop => false

def blockContainsCalls : List Stmt → Bool
  | [] => false
  | stmt :: stmts => stmt.containsCalls || blockContainsCalls stmts

end

end Stmt

end ArmBackend
