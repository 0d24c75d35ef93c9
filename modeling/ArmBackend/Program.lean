import ArmBackend.Function.Compile

/-!
# Programs

A unit is compiled to one text: the functions in order, the builtins that they use, and the data
section. All functions are entered in the tables before the first is lowered.
-/

namespace ArmBackend

/-- One compilation unit. -/
structure Program where
  declarations : List Signature
  functions : List Function

namespace Program

/-- Functions one after the other. -/
def compileFunctions : List Function → CompileM Code
  | [] => return []
  | function :: functions => do
    let code ← function.compile
    let rest ← compileFunctions functions
    return code ++ rest

def compile (program : Program) : CompileM Code := do
  program.declarations.forM Session.declare
  program.functions.forM (Session.define ·.signature)
  let code ← compileFunctions program.functions
  let session ← get
  return .directive .textSection :: code ++
    session.neededBuiltins.flatMap (Builtin.code · session.options) ++ session.data.code

/-- The assembly text of a unit. -/
def assembly (program : Program) (options : Options) : Except CompileError String :=
  let (outcome, session) := program.compile.run (Session.start options)
  outcome.map session.render

end Program

end ArmBackend
