import ArmBackend.Proofs.Function.Twins

/-!
# What a failure leaves behind

Wherever lowering fails, the frames and the tables are as they were, and no function has been recorded. This
is what a run has in common with itself.
-/

namespace ArmBackend

open Session (Tandem Uniform Twins onFrame)

structure Stats.SameRecord (s t : Stats) : Prop where
  functions : t.functions = s.functions
  spills : t.spills = s.spills
  largestFrame : t.largestFrame = s.largestFrame
  largestFunction : t.largestFunction = s.largestFunction

namespace Session

/-- The open frames and the tables of `σ` are those of `τ`. Ids may have been used up. -/
structure Restores (σ τ : Session) : Prop where
  frames : τ.frames = σ.frames
  declared : τ.declared = σ.declared
  defined : τ.defined = σ.defined
  nextIf : σ.nextIf ≤ τ.nextIf
  nextLoop : σ.nextLoop ≤ τ.nextLoop

/-- A step on a frame of its own that does the same in any two runs leaves nothing else changed. -/
theorem Uniform.restores {step : CompileM Code} (h : ∀ {a b : Session} {r : Relabelling}, Uniform a b r step)
    (σ : Session) :
    ∃ outcome τ g, step.run { σ with frames := {} :: σ.frames } = (outcome, τ) ∧ τ.frames = g :: σ.frames ∧
      σ.Restores { τ with frames := σ.frames } ∧ σ.stats.SameRecord τ.stats := by
  obtain ⟨_, -, htwins, -⟩ := h _ _ (Twins.opened (a := σ) (b := σ) rfl fun _ => rfl)
  obtain ⟨f, ids, _, hframes, -, -⟩ := htwins.frames
  obtain ⟨-, htables⟩ := Prod.mk.inj htwins.left
  obtain ⟨hdeclared, hrest⟩ := Prod.mk.inj htables
  obtain ⟨hdefined, hstats⟩ := Prod.mk.inj hrest
  obtain ⟨hfunctions, -, hspills, -, -, hlargest, hname⟩ := Stats.mk.inj hstats
  exact ⟨_, _, _, rfl, hframes, ⟨rfl, hdeclared, hdefined, htwins.nextIf.le, htwins.nextLoop.le⟩,
    ⟨hfunctions, hspills, hlargest, hname⟩⟩

end Session

/-! ## Expressions on a frame of their own -/

namespace Expr

variable {a b : Session} {r : Relabelling}

theorem addVariables_tandem {locals : List Param} :
    Tandem a b r (locals.forM fun var => discard (onFrame (Frame.addVariable var.ty var.name)))
      (locals.forM fun var => discard (onFrame (Frame.addVariable var.ty var.name))) fun _ _ _ => True := by
  induction locals generalizing r with
  | nil => exact .pure trivial
  | cons var locals ih =>
    have hvar : Tandem a b r (onFrame (Frame.addVariable var.ty var.name) >>= pure)
        (onFrame (Frame.addVariable var.ty var.name) >>= pure) fun _ _ _ => True :=
      .onFrame (.addVariable var.ty var.name) fun _ => .pure trivial
    rw [bind_pure] at hvar
    exact .bind hvar.discard fun _ _ _ _ _ => ih

theorem lowerAlone_restores (locals : List Param) (target : Reservation) (expr : Expr) (σ : Session) :
    σ.Restores ((expr.lowerAlone locals target).run σ).2 ∧
      σ.stats.SameRecord ((expr.lowerAlone locals target).run σ).2.stats := by
  have hstep : ∀ {a b : Session} {r : Relabelling}, Uniform a b r do
      locals.forM fun var => discard (onFrame (Frame.addVariable var.ty var.name))
      let code ← expr.lower target
      let live ← onFrame (Frame.temporaries <$> get)
      unless live.isEmpty do throw (.internal .temporariesAfterExpression)
      return code :=
    .bind addVariables_tandem fun _ _ _ _ _ => .bind (expr.lower_uniform target) fun _ _ _ _ hcode =>
      Session.check_uniform hcode
  obtain ⟨outcome, τ, g, hrun, hframes, hrestores, hrecord⟩ := Session.Uniform.restores hstep σ
  rw [lowerAlone, StepM.run_bind, Session.inFrame_run_of_frames hrun hframes]
  cases outcome <;> exact ⟨hrestores, hrecord⟩

end Expr

/-! ## Functions -/

namespace Function

/-- Lowering a function or an expression leaves the frames that are open as they were, and the tables. A
function that fails to compile has not been recorded. The counters of ids do not go back. They stay in 32 bits
where they and the numbers of branches and loops of the function do, failed or not (`Function.compile_draws`). -/
theorem lowering_atomic (σ : Session) :
    (∀ function : Function, σ.Restores (function.compile.run σ).2 ∧
      ∀ e, (function.compile.run σ).1 = .error e → σ.stats.SameRecord (function.compile.run σ).2.stats) ∧
    ∀ (locals : List Param) (target : Reservation) (expr : Expr),
      σ.Restores ((expr.lowerAlone locals target).run σ).2 ∧
        σ.stats.SameRecord ((expr.lowerAlone locals target).run σ).2.stats := by
  refine ⟨fun function => ?_, fun locals target expr => expr.lowerAlone_restores locals target σ⟩
  obtain ⟨outcome, τ, g, hbody, hframes, hrestores, hrecord⟩ :=
    Session.Uniform.restores function.lowerBody_uniform σ
  cases outcome with
  | error e =>
    rw [compile_error hbody hframes]
    exact ⟨hrestores, fun _ _ => hrecord⟩
  | ok body =>
    rw [compile_success hbody hframes]
    exact ⟨{ hrestores with }, nofun⟩

/-- `int f() { while (1) return 1 + z; }` fails in its loop with the temporary of `1` live, and so does `1 + z`
on its own. The function around them has a variable and is in the loop 7. -/
theorem lowering_atomic_nested :
    let slot : Slot := ⟨8, .int⟩
    let outer : Frame :=
      { locals := [slot], symbols := [("x", slot)], position := 8, highWater := 8, paddings := [0], loops := [7] }
    let start : Session := { Session.start {} with frames := [outer], nextLoop := 8 }
    let one : Expr := .literal (.int 1) .int
    let sum : Expr := .binary (.arith .add) one (.var "z" .int) .int
    let function : Function := ⟨⟨.int, "f", []⟩, [.loop one [.ret sum]]⟩
    (∃ τ, function.compile.run start = (.error (.undefinedVariable "z"), τ) ∧ τ.frames = [outer] ∧
      start.stats.SameRecord τ.stats) ∧
    ∃ τ, (sum.lowerAlone [] (.ofReg .int .result)).run start = (.error (.undefinedVariable "z"), τ) ∧
      τ.frames = [outer] := by
  intro slot outer start one sum function
  obtain ⟨hcompile, halone⟩ := lowering_atomic start
  obtain ⟨hrestores, hrecord⟩ := hcompile function
  obtain ⟨hrestores', -⟩ := halone [] (.ofReg .int .result) sum
  have hfails : (function.compile.run start).1 = .error (.undefinedVariable "z") := by decide +kernel
  have hfails' : ((sum.lowerAlone [] (.ofReg .int .result)).run start).1 = .error (.undefinedVariable "z") := by
    decide +kernel
  exact ⟨⟨_, Prod.ext hfails rfl, hrestores.frames, hrecord _ hfails⟩,
    _, Prod.ext hfails' rfl, hrestores'.frames⟩

end Function

end ArmBackend
