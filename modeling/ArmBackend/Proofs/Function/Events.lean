import ArmBackend.Proofs.Function.Links
import ArmBackend.Proofs.Stmt.Events

/-!
# References that compiling a function makes

A function refers to what the statements of its body call. Neither its parameters nor the implicit return
refer to anything.
-/

namespace ArmBackend

open Event (refers)
open Session (Performs)

namespace Function

theorem bindParams_refers {params : List Param} {regs : List Register} : Performs [] (bindParams params regs) := by
  induction params generalizing regs with
  | nil => exact .pure _
  | cons param params ih =>
    cases regs with
    | nil => exact .throw _
    | cons reg regs =>
      exact .quiet_bind (.onFrame _) fun _ => .quiet_bind (.lift _) fun _ => .quiet_bind ih fun _ => .pure _

theorem implicitReturn_refers {signature : Signature} : Performs [] (implicitReturn signature) := by
  refine .quiet_bind .get fun session => ?_
  split
  · have hret : Performs (refers (Expr.literal (.int 0) .int).callees)
        (Lower.ret signature (.literal (.int 0) .int)) := Lower.ret_refers
    exact hret
  · exact .pure _

theorem lowerBody_refers (function : Function) : Performs (refers function.callees) function.lowerBody := by
  refine .quiet_bind bindParams_refers fun _ => .bind_quiet (Stmt.lowerBlock_refers function.body) fun _ =>
    .quiet_bind implicitReturn_refers fun _ => .quiet_bind (.onFrame _) fun live => ?_
  cases live.isEmpty with
  | true => exact .pure _
  | false => exact .throw _

theorem compile_refers (function : Function) : Performs (refers function.callees) function.compile :=
  .bind_quiet (.inFrame function.lowerBody_refers) fun _ => .quiet_bind (.modify fun _ => rfl) fun _ =>
    .quiet_bind .get fun _ => .pure _

end Function

end ArmBackend
