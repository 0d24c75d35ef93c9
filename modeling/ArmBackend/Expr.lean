import ArmBackend.Operator

/-!
# Expressions

The typed expression tree. Every node carries its own type, whatever its children say: the checked
constructors of `ArmBackend.Expr.Build` are the ones that keep the two in agreement.
-/

namespace ArmBackend

inductive Literal where
  | int (value : Word)
  | char (value : Byte)
deriving DecidableEq

namespace Literal

/-- The word that stands for the literal in a register. -/
def bits : Literal → Word
  | .int value => value
  | .char value => value.setWidth 64

def ty : Literal → Ty
  | .int _ => .int
  | .char _ => .char

end Literal

/-- The callee that stands for a system trap. Its first argument is the trap number. -/
def trapCallee : String := "svc"

inductive Expr where
  | literal (value : Literal) (ty : Ty)
  | var (name : String) (ty : Ty)
  /-- The place that a pointer points to. -/
  | deref (pointer : Expr) (ty : Ty)
  | call (callee : String) (args : List Expr) (ty : Ty)
  | binary (op : BinOp) (lhs rhs : Expr) (ty : Ty)
  | unary (op : UnOp) (operand : Expr) (ty : Ty)
  /-- An array on the stack. Its value is the address of its first element. -/
  | array (elements : List Expr) (ty : Ty)
  /-- A string constant. Its value is the address of its first byte. -/
  | str (text : String) (ty : Ty)
  /-- No value, as in a bare return. -/
  | empty (ty : Ty)

namespace Expr

instance : Inhabited Expr := ⟨.empty .void⟩

def ty : Expr → Ty
  | .literal _ ty | .var _ ty | .deref _ ty | .call _ _ ty | .binary _ _ _ ty | .unary _ _ ty
  | .array _ ty | .str _ ty | .empty ty => ty

/-- The same node under another type. -/
def withTy (ty : Ty) : Expr → Expr
  | .literal value _ => .literal value ty
  | .var name _ => .var name ty
  | .deref pointer _ => .deref pointer ty
  | .call callee args _ => .call callee args ty
  | .binary op lhs rhs _ => .binary op lhs rhs ty
  | .unary op operand _ => .unary op operand ty
  | .array elements _ => .array elements ty
  | .str text _ => .str text ty
  | .empty _ => .empty ty

def isEmpty : Expr → Bool
  | .empty _ => true
  | _ => false

def isArray : Expr → Bool
  | .array .. => true
  | _ => false

def isVar : Expr → Bool
  | .var .. => true
  | _ => false

/-! ## Calls inside an expression -/

mutual

/-- Whether evaluating the expression performs a call or a trap. -/
def containsCalls : Expr → Bool
  | .call .. => true
  | .deref pointer _ => pointer.containsCalls
  | .binary _ lhs rhs _ => lhs.containsCalls || rhs.containsCalls
  | .unary _ operand _ => operand.containsCalls
  | .array elements _ => anyContainsCalls elements
  | .literal .. | .var .. | .str .. | .empty _ => false

def anyContainsCalls : List Expr → Bool
  | [] => false
  | expr :: exprs => expr.containsCalls || anyContainsCalls exprs

end

end Expr

end ArmBackend
