import ArmBackend.Register
import ArmBackend.Step

/-!
# Argument registers

Arguments are passed in registers, in order of declaration. None is passed on the stack.
-/

namespace ArmBackend

def tooManyArguments : CompileError := .unsupported (.stackArguments Register.argBank.length)

/-- The registers of `count` arguments. -/
def argRegisters (count : Nat) : Except CompileError (List Register) :=
  if count ≤ Register.argBank.length then .ok (Register.argBank.take count)
  else .error tooManyArguments

/-! ## One at a time -/

/-- Hands out argument registers one after the other. -/
structure ArgAssigner where
  next : Nat := 0

namespace ArgAssigner

abbrev M := StepM ArgAssigner

def assign : M Register := do
  let assigner ← get
  match Register.argBank[assigner.next]? with
  | some reg =>
    set { assigner with next := assigner.next + 1 }
    return reg
  | none => throw tooManyArguments

def assignMany : Nat → M (List Register)
  | 0 => return []
  | count + 1 => return (← assign) :: (← assignMany count)

/-- The registers of a call with `count` arguments, from the first register on. -/
def assignCall (count : Nat) : M (List Register) := do
  set ({} : ArgAssigner)
  assignMany count

end ArgAssigner

end ArmBackend
