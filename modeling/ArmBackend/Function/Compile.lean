import ArmBackend.FrameLayout
import ArmBackend.Stmt.Lower

/-!
# Compiling functions

The body is lowered first. The largest extent of its frame and whether it calls out then decide the
prologue and the epilogue.
-/

namespace ArmBackend

open Session (onFrame)

namespace Function

/-- Copies the parameters from their registers into variables. -/
def bindParams : List Param → List Register → CompileM Code
  | [], _ => return []
  | _ :: _, [] => throw tooManyArguments
  | param :: params, reg :: regs => do
    let slot ← onFrame (Frame.addVariable param.ty param.name)
    let code ← Code.copy (.ofReg param.ty reg) slot.reservation
    let rest ← bindParams params regs
    return code ++ rest

/-- The entry point returns 0 where its body ends. -/
def implicitReturn (signature : Signature) : CompileM Code := do
  if signature.name = (← get).options.entryPoint && signature.returnTy = .int then
    Lower.ret signature (.literal (.int 0) .int)
  else return []

/-- The code between prologue and epilogue. -/
def lowerBody (function : Function) : CompileM Code := do
  let signature := function.signature
  let paramCode ← bindParams signature.params Register.argBank
  let code ← Stmt.lowerBlock signature function.body
  let returnCode ← implicitReturn signature
  let live ← onFrame (Frame.temporaries <$> get)
  unless live.isEmpty do
    throw (.internal (.temporariesAfterFunction live.length signature.name))
  return paramCode ++ code ++ returnCode

/-- The complete code of a function. -/
def compile (function : Function) : CompileM Code := do
  let (body, frame) ← Session.inFrame function.lowerBody
  let layout := FrameLayout.ofHighWater frame.highWater function.containsCalls
  modify (Session.recordFunction function.name frame layout.totalSize)
  return (← get).options.functionHeader function.name ++ layout.prologue ++ body ++
    .label (.returnOf function.name) :: layout.epilogue

end Function

end ArmBackend
