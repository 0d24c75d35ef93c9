import ArmBackend.Stmt

/-!
# Functions
-/

namespace ArmBackend

structure Param where
  ty : Ty
  name : String
deriving DecidableEq

structure Signature where
  returnTy : Ty
  name : String
  params : List Param
deriving DecidableEq

/-- Two signatures agree when name, return type and parameter types do. Parameter names do not
matter. -/
def Signature.sameTypes (a b : Signature) : Bool :=
  a.name == b.name && a.returnTy == b.returnTy && a.params.map (·.ty) == b.params.map (·.ty)

structure Function where
  signature : Signature
  body : List Stmt

namespace Function

def name (function : Function) : String := function.signature.name

def containsCalls (function : Function) : Bool := Stmt.blockContainsCalls function.body

end Function

end ArmBackend
