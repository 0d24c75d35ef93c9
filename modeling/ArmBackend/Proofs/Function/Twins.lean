import ArmBackend.Function.Compile
import ArmBackend.Proofs.Stmt.Twins

/-!
# Functions in two runs

What was compiled before a function shows in the numbers of its labels and nowhere else.
-/

namespace ArmBackend

open Session (Tandem Uniform Twins onFrame relabelling)

variable {a b : Session} {r : Relabelling} {function : Function} {signature : Signature}

theorem Session.check_uniform {error : List Reservation → CompileError} {code code' : Code}
    (hcode : r.Turns code code') :
    Tandem a b r
      (do
        let live ← onFrame (Frame.temporaries <$> get)
        unless live.isEmpty do throw (error live)
        return code)
      (do
        let live ← onFrame (Frame.temporaries <$> get)
        unless live.isEmpty do throw (error live)
        return code') Relabelling.Turns := by
  refine .onFrame (.read fun _ _ => rfl) fun live => ?_
  split
  · exact .pure hcode
  · exact .throw _

namespace Function

theorem bindParams_uniform {params : List Param} {regs : List Register} :
    Uniform a b r (bindParams params regs) := by
  induction params generalizing r regs with
  | nil => exact .pure .nil
  | cons param params ih =>
    cases regs with
    | nil => exact .throw _
    | cons reg regs =>
      exact .onFrame (.addVariable param.ty param.name) fun _ => .check fun _ hcopy =>
        .bind ih fun _ _ _ _ hrest => .pure (.append (Code.inert_copy hcopy).turns hrest)

theorem implicitReturn_uniform : Uniform a b r (implicitReturn signature) := by
  refine .get fun σ τ hoptions => ?_
  rw [hoptions]
  split
  · exact Lower.ret_uniform
  · exact .pure .nil

theorem lowerBody_uniform (function : Function) : Uniform a b r function.lowerBody :=
  .bind bindParams_uniform fun _ _ _ _ hparams =>
  .bind (Stmt.lowerBlock_uniform _) fun _ _ _ h₁ hcode =>
  .bind implicitReturn_uniform fun _ _ _ h₂ hret =>
  Session.check_uniform (.append (.append (hparams.later (h₁.trans h₂)) (hcode.later h₂)) hret)

/-! ## Complete functions -/

section

variable {σ τ : Session} {g : Frame} {gs : List Frame}

theorem compile_error {e : CompileError}
    (hbody : function.lowerBody.run { σ with frames := {} :: σ.frames } = (.error e, τ))
    (hg : τ.frames = g :: gs) : function.compile.run σ = (.error e, { τ with frames := gs }) := by
  rw [compile, StepM.run_bind, Session.inFrame_run_of_frames hbody hg]
  rfl

theorem compile_success {body : Code}
    (hbody : function.lowerBody.run { σ with frames := {} :: σ.frames } = (.ok body, τ))
    (hg : τ.frames = g :: gs) :
    let layout := FrameLayout.ofHighWater g.highWater function.containsCalls
    function.compile.run σ =
      (.ok (τ.options.functionHeader function.name ++ layout.prologue ++ body ++
          .label (.returnOf function.name) :: layout.epilogue),
        Session.recordFunction function.name g layout.totalSize { τ with frames := gs }) := by
  rw [compile, StepM.run_bind, Session.inFrame_run_of_frames hbody hg]
  rfl

end

theorem turns_functionHeader {options : Options} {name : String} :
    r.Turns (options.functionHeader name) (options.functionHeader name) := by
  rw [Options.functionHeader]
  split <;> rfl

/-- A function fails to compile in both sessions with the same error, or it compiles to the same code in
both, apart from the numbers of the labels. Both sessions count the same calls, spills, saves and labels. The
ids fit 32 bits in both where `nextIf` and the number of branches of the function together stay below `2 ^ 32`,
and so for the loops (`Function.compile_draws`). -/
theorem compile_independent (function : Function) (hoptions : a.options = b.options)
    (hsignatures : ∀ name, a.signature? name = b.signature? name) :
    SameOutcome (relabelling a b (function.compile.run a).2 (function.compile.run b).2).Turns
        (function.compile.run a).1 (function.compile.run b).1 ∧
      Stats.InStep a.stats b.stats (function.compile.run a).2.stats (function.compile.run b).2.stats := by
  have hopened := Twins.opened hoptions hsignatures
  obtain ⟨r, -, htwins, houtcome⟩ := function.lowerBody_uniform _ _ hopened
  obtain ⟨f, ids, ids', hσ, hτ, -⟩ := htwins.frames
  obtain rfl := htwins.relabelling
  rcases hbody : function.lowerBody.run { a with frames := {} :: a.frames } with ⟨outcome, σ⟩
  rcases hbody' : function.lowerBody.run { b with frames := {} :: b.frames } with ⟨outcome', τ⟩
  rw [hbody, hbody'] at htwins houtcome
  rw [hbody] at hσ
  rw [hbody'] at hτ
  cases houtcome with
  | error e =>
    rw [compile_error hbody hσ, compile_error hbody' hτ]
    exact ⟨.error e, htwins.stats⟩
  | ok hcode =>
    rw [compile_success hbody hσ, compile_success hbody' hτ]
    refine ⟨.ok ?_, ?_⟩
    · rw [htwins.options]
      exact .append (.append (.append turns_functionHeader (FrameLayout.inert_prologue _).turns) hcode)
        (.append (.label rfl) (FrameLayout.inert_epilogue _).turns)
    · exact htwins.stats.recordFunction _ _ _

/-- `int f(int x) { while (x) if (x) break; char* p = "b"; return x; }`, first as all there is, and then below
an open frame, where `int g() { if (1) {} char* q = "a"; break; }` has failed. -/
theorem compile_independent_history :
    let text : Ty := .ptr .char
    let f : Function := ⟨⟨.int, "f", [⟨.int, "x"⟩]⟩, [.loop (.var "x" .int) [.ifElse (.var "x" .int) [.breakLoop] []],
      .init text "p" (.str "b" text), .ret (.var "x" .int)]⟩
    let g : Function := ⟨⟨.int, "g", []⟩, [.ifElse (.literal (.int 1) .int) [] [], .init text "q" (.str "a" text),
      .breakLoop]⟩
    let a : Session := Session.start {}
    let b : Session := { (g.compile.run a).2 with frames := [{}] }
    ∃ code σ code' τ, f.compile.run a = (.ok code, σ) ∧ f.compile.run b = (.ok code', τ) ∧
      (.label (.ifExit 0)) ∈ code ∧ (.label (.ifExit 1)) ∈ code' ∧
      (relabelling a b σ τ).Turns code code' ∧ Stats.InStep a.stats b.stats σ.stats τ.stats := by
  intro text f g a b
  obtain ⟨code, σ, hcode, htest⟩ := StepM.exists_of_any (f.compile.run a)
    (fun code _ => Line.label (.ifExit 0) ∈ code) (by decide +kernel)
  obtain ⟨code', τ, hcode', htest'⟩ := StepM.exists_of_any (f.compile.run b)
    (fun code _ => Line.label (.ifExit 1) ∈ code) (by decide +kernel)
  have hdeclared : a.declared = b.declared := by decide +kernel
  have hdefined : a.defined = b.defined := by decide +kernel
  obtain ⟨houtcome, hstats⟩ := compile_independent (a := a) (b := b) f (by decide +kernel) fun name => by
    rw [Session.signature?, Session.signature?, hdeclared, hdefined]
  rw [hcode, hcode'] at houtcome hstats
  cases houtcome with
  | ok hturns =>
    exact ⟨code, σ, code', τ, hcode, hcode', of_decide_eq_true htest, of_decide_eq_true htest', hturns, hstats⟩

end Function

end ArmBackend
