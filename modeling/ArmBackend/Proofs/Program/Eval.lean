import ArmBackend.Program
import ArmBackend.Proofs.Stmt.Exec
import ArmBackend.Proofs.Stmt.Shape

/-!
# Calls of functions

What a call of a function of a unit returns, by executing the function's body.
-/

namespace ArmBackend

namespace Function

def enter : List Param → List Word → Env → Option Env
  | [], [], env => some env
  | param :: params, v :: args, env => enter params args (env.define param.ty param.name v)
  | _, _, _ => none

/-- What a function returns whose body leaves off so. The entry point returns 0 at its end. Any other
function returns nothing there. -/
def answer (function : Function) : Outcome → Option (Option Word)
  | .returned value => some value
  | .next _ =>
    if function.name = ({} : Options).entryPoint ∧ function.signature.returnTy = .int then some (some 0)
    else some none
  | .broke _ | .continued _ => none

def eval (ctx : Context) (fuel : Nat) (function : Function) (args : List Word) :
    Option (Option Word) := do
  let env ← enter function.signature.params args fun _ => none
  let outcome ← Stmt.execBlock ctx fuel function.body env
  function.answer outcome

theorem eval_eq_some {ctx : Context} {fuel : Nat} {function : Function} {args : List Word}
    {result : Option Word} (h : function.eval ctx fuel args = some result) :
    ∃ env outcome, enter function.signature.params args (fun _ => none) = some env ∧
      Stmt.execBlock ctx fuel function.body env = some outcome ∧
      function.answer outcome = some result := by
  obtain ⟨env, henv, h₁⟩ := Option.bind_eq_some_iff.mp h
  obtain ⟨outcome, houtcome, h₂⟩ := Option.bind_eq_some_iff.mp h₁
  exact ⟨env, outcome, henv, houtcome, h₂⟩

end Function

namespace Program

def context (text : String → Word) (call : String → List Word → Option (Option Word)) : Context where
  value _ _ := none
  address _ := none
  load _ _ := none
  text
  call

/-- What a call returns, if it takes at most `depth` calls inside each other and loops take at most
`fuel` rounds: a word or nothing. `text` says where string constants lie. -/
def call (program : Program) (text : String → Word) (fuel : Nat) :
    Nat → String → List Word → Option (Option Word)
  | 0, _, _ => none
  | depth + 1, name, args => do
    let function ← program.functions.find? (·.name == name)
    function.eval (context text (program.call text fuel depth)) fuel args

theorem call_succ {program : Program} {text : String → Word} {fuel depth : Nat} {name : String}
    {args : List Word} {result : Option Word}
    (h : program.call text fuel (depth + 1) name args = some result) :
    ∃ function ∈ program.functions, function.name = name ∧
      function.eval (context text (program.call text fuel depth)) fuel args = some result := by
  obtain ⟨function, hfind, heval⟩ := Option.bind_eq_some_iff.mp h
  have hname := List.find?_some hfind
  exact ⟨function, List.mem_of_find?_eq_some hfind, beq_iff_eq.mp hname, heval⟩

/-- Whether all variables are declared at the top level of bodies, nothing is stored through pointers,
and expressions are plain. Functions have names. -/
structure Plain (program : Program) : Prop where
  outer : ∀ function ∈ program.functions, ∀ stmt ∈ function.body, stmt.Outer
  named : ∀ function ∈ program.functions, function.name ≠ ""

end Program

end ArmBackend
