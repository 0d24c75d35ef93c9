import ArmBackend.Ty

/-!
# Operators

The operators of the compiled language, the types they apply to and the types they produce.
Pointers take part in arithmetic as pointer plus or minus integer, and compare with pointers only.
-/

namespace ArmBackend

/-! ## Binary operators -/

inductive Arith where
  | add | sub | mul | div | bitAnd | bitOr | bitXor
deriving DecidableEq

/-- The signed comparisons. -/
inductive Cond where
  | eq | ne | lt | gt | le | ge
deriving DecidableEq

inductive BinOp where
  | arith (op : Arith)
  | compare (cond : Cond)
deriving DecidableEq

/-- The three-register instruction that computes the operation. -/
def Arith.mnemonic : Arith → String
  | .add => "add"
  | .sub => "sub"
  | .mul => "mul"
  | .div => "sdiv"
  | .bitAnd => "and"
  | .bitOr => "orr"
  | .bitXor => "eor"

/-- The condition code of the comparison. -/
def Cond.code : Cond → String
  | .eq => "eq"
  | .ne => "ne"
  | .lt => "lt"
  | .gt => "gt"
  | .le => "le"
  | .ge => "ge"

namespace BinOp

def all : List BinOp :=
  [.arith .add, .arith .sub, .arith .mul, .arith .div,
    .compare .eq, .compare .ne, .compare .lt, .compare .gt, .compare .le, .compare .ge,
    .arith .bitAnd, .arith .bitOr, .arith .bitXor]

def symbol : BinOp → String
  | .arith .add => "+"
  | .arith .sub => "-"
  | .arith .mul => "*"
  | .arith .div => "/"
  | .arith .bitAnd => "&"
  | .arith .bitOr => "|"
  | .arith .bitXor => "^"
  | .compare .eq => "=="
  | .compare .ne => "!="
  | .compare .lt => "<"
  | .compare .gt => ">"
  | .compare .le => "<="
  | .compare .ge => ">="

def ofSymbol? (symbol : String) : Option BinOp := all.find? (·.symbol == symbol)

def mnemonic? : BinOp → Option String
  | .arith op => some op.mnemonic
  | .compare _ => none

def condition? : BinOp → Option Cond
  | .arith _ => none
  | .compare cond => some cond

def isComparison (op : BinOp) : Bool := op.condition?.isSome

/-- Whether the operator applies to operands of these types. -/
def accepts (op : BinOp) : Ty → Ty → Bool
  | .void, _ | .custom _, _ | _, .void | _, .custom _ => false
  | .ptr _, .ptr _ => op.isComparison
  | .ptr pointee, _ => (op == .arith .add || op == .arith .sub) && pointee.storable
  | _, .ptr pointee => op == .arith .add && pointee.storable
  | _, _ => true

/-- The type of the result. It means something for accepted operands only. -/
def result (op : BinOp) (lhs rhs : Ty) : Ty :=
  if op.isComparison then .int
  else if lhs.isPointer then lhs
  else if rhs.isPointer then rhs
  else if lhs = rhs then lhs
  else .int

end BinOp

/-! ## Unary operators -/

inductive UnOp where
  | neg
  /-- Logical negation. -/
  | not
  | bitNot
  | deref
  | addrOf
deriving DecidableEq

namespace UnOp

def all : List UnOp := [.neg, .not, .bitNot, .deref, .addrOf]

def symbol : UnOp → String
  | .neg => "-"
  | .not => "!"
  | .bitNot => "~"
  | .deref => "*"
  | .addrOf => "&"

/-- Whether the operator applies to an operand of this type. -/
def accepts (op : UnOp) : Ty → Bool
  | .void | .custom _ => false
  | .ptr pointee =>
    match op with
    | .deref => pointee.storable
    | .addrOf | .not => true
    | .neg | .bitNot => false
  | .int | .char => op != .deref

/-- The type of the result. It means something for accepted operands only. -/
def result (op : UnOp) (operand : Ty) : Ty :=
  match op with
  | .deref => operand.pointee?.getD .void
  | .addrOf => .ptr operand
  | .not => .int
  | .neg | .bitNot => operand

end UnOp

instance : ToString BinOp := ⟨BinOp.symbol⟩
instance : ToString UnOp := ⟨UnOp.symbol⟩

end ArmBackend
