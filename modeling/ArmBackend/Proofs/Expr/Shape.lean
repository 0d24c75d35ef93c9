import ArmBackend.Expr

/-!
# The shape of expressions

Induction over expressions, and expressions without arrays.
-/

namespace ArmBackend.Expr

/-- Induction over an expression with one case for each form. Lists of expressions are covered by their
members. -/
@[elab_as_elim]
theorem induct {P : Expr → Prop} (literal : ∀ value ty, P (.literal value ty))
    (var : ∀ name ty, P (.var name ty)) (deref : ∀ pointer ty, P pointer → P (.deref pointer ty))
    (call : ∀ callee args ty, (∀ arg ∈ args, P arg) → P (.call callee args ty))
    (binary : ∀ op lhs rhs ty, P lhs → P rhs → P (.binary op lhs rhs ty))
    (unary : ∀ op operand ty, P operand → P (.unary op operand ty))
    (array : ∀ elements ty, (∀ element ∈ elements, P element) → P (.array elements ty))
    (str : ∀ text ty, P (.str text ty)) (empty : ∀ ty, P (.empty ty)) (expr : Expr) : P expr :=
  @Expr.rec P (fun exprs => ∀ expr ∈ exprs, P expr) literal var deref call binary unary array str
    empty (fun _ h => absurd h List.not_mem_nil)
    (fun _ _ hhead htail _ h => (List.mem_cons.mp h).elim (· ▸ hhead) (htail _)) expr

mutual

def arrayFree : Expr → Bool
  | .array .. => false
  | .deref pointer _ => pointer.arrayFree
  | .call _ args _ => allArrayFree args
  | .binary _ lhs rhs _ => lhs.arrayFree && rhs.arrayFree
  | .unary _ operand _ => operand.arrayFree
  | .literal .. | .var .. | .str .. | .empty _ => true

def allArrayFree : List Expr → Bool
  | [] => true
  | expr :: exprs => expr.arrayFree && allArrayFree exprs

end

theorem allArrayFree_eq_true {exprs : List Expr} :
    allArrayFree exprs = true ↔ ∀ expr ∈ exprs, expr.arrayFree = true := by
  induction exprs with
  | nil => simp [allArrayFree]
  | cons expr exprs ih => simp [allArrayFree, ih]

theorem anyContainsCalls_eq_false {exprs : List Expr} :
    anyContainsCalls exprs = false ↔ ∀ expr ∈ exprs, expr.containsCalls = false := by
  induction exprs with
  | nil => simp [anyContainsCalls]
  | cons expr exprs ih => simp [anyContainsCalls, ih]

theorem anyContainsCalls_iff {exprs : List Expr} :
    anyContainsCalls exprs = true ↔ ∃ expr ∈ exprs, expr.containsCalls = true := by
  induction exprs with
  | nil => simp [anyContainsCalls]
  | cons expr exprs ih => simp [anyContainsCalls, ih]

end ArmBackend.Expr
