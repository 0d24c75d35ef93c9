import ArmBackend.Proofs.Expr.Eval
import ArmBackend.Stmt

/-!
# Executing statements

What statements do to variables and where they leave off. A statement has no outcome where an expression
in it has no value, where it stores through a pointer, or where a loop takes more rounds than it may.
-/

namespace ArmBackend

/-! ## Variables -/

/-- The variables in scope, each with its type, and with its value once it has one. -/
abbrev Env := String → Option (Ty × Option Word)

namespace Env

def declare (env : Env) (ty : Ty) (name : String) : Env := Function.update env name (some (ty, none))

/-- A new variable with a value. It keeps as much of the value as its type holds. -/
def define (env : Env) (ty : Ty) (name : String) (v : Word) : Env :=
  Function.update env name (some (ty, some (ty.width.low v)))

def assign (env : Env) (name : String) (v : Word) : Option Env :=
  (env name).map fun var => env.define var.1 name v

/-- The values of expressions, where variables are read under their own types and nothing has an
address. Texts and calls are worth what they are in `ctx`. -/
def context (env : Env) (ctx : Context) : Context where
  value name ty := (env name).bind fun var => if var.1 = ty then var.2 else none
  address _ := none
  load _ _ := none
  text := ctx.text
  call := ctx.call

end Env

/-! ## Statements -/

inductive Outcome where
  /-- At its end. -/
  | next (env : Env)
  | broke (env : Env)
  | continued (env : Env)
  | returned (value : Option Word)

namespace Outcome

def andThen (outcome : Outcome) (rest : Env → Option Outcome) : Option Outcome :=
  match outcome with
  | .next env => rest env
  | outcome => some outcome

end Outcome

namespace Stmt

/-- Rounds of a loop, at most `fuel`. A round that breaks is the last. -/
def iterate (round : Env → Option Outcome) : Nat → Env → Option Outcome
  | 0, _ => none
  | fuel + 1, env =>
    (round env).bind fun
      | .next env | .continued env => iterate round fuel env
      | .broke env => some (.next env)
      | .returned value => some (.returned value)

mutual

def exec (ctx : Context) (fuel : Nat) : Stmt → Env → Option Outcome
  | .declare ty name, env => some (.next (env.declare ty name))
  | .init ty name value, env =>
    let env := env.declare ty name
    (value.eval (env.context ctx)).bind fun v => (env.assign name v).map .next
  | .assign name value, env =>
    (value.eval (env.context ctx)).bind fun v => (env.assign name v).map .next
  | .store .., _ => none
  | .ret value, env =>
    if value.isEmpty then some (.returned none)
    else (value.eval (env.context ctx)).map fun v => .returned (some v)
  | .call callee args, env =>
    if callee = trapCallee then none
    else (Expr.evalAll (env.context ctx) args).bind fun values =>
      (ctx.call callee values).map fun _ => .next env
  | .ifElse cond thenBlock elseBlock, env =>
    (cond.eval (env.context ctx)).bind fun v =>
      if v = 0 then execBlock ctx fuel elseBlock env else execBlock ctx fuel thenBlock env
  | .loop cond body, env =>
    iterate (fun env => (cond.eval (env.context ctx)).bind fun v =>
      if v = 0 then some (.broke env) else execBlock ctx fuel body env) fuel env
  | .breakLoop, env => some (.broke env)
  | .continueLoop, env => some (.continued env)

def execBlock (ctx : Context) (fuel : Nat) : List Stmt → Env → Option Outcome
  | [], env => some (.next env)
  | stmt :: stmts, env => (stmt.exec ctx fuel env).bind (·.andThen (execBlock ctx fuel stmts))

end

end Stmt

end ArmBackend
