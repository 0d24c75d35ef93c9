import ArmBackend.Function.Compile
import ArmBackend.Proofs.Function.Layout
import ArmBackend.Proofs.Stmt.Inversion

/-!
# What a successful compilation of a function consists of
-/

namespace ArmBackend

open Session (onFrame onFrame_ok)

variable {σ τ : Session} {code : Code}

theorem Session.inFrame_ok {α : Type} {step : CompileM α} {a : α} {frame : Frame}
    (h : (inFrame step).run σ = (.ok (a, frame), τ)) :
    ∃ σ₁ frames, step.run { σ with frames := {} :: σ.frames } = (.ok a, σ₁) ∧
      σ₁.frames = frame :: frames ∧ τ = { σ₁ with frames } := by
  obtain ⟨_, σ₀, hpush, h₁⟩ := StepM.run_bind_eq_ok.mp h
  obtain ⟨outcome, σ₁, hattempt, h₂⟩ := StepM.run_bind_eq_ok.mp h₁
  obtain ⟨frame', σ₂, hpop, h₃⟩ := StepM.run_bind_eq_ok.mp h₂
  obtain ⟨value, σ₃, hvalue, h₄⟩ := StepM.run_bind_eq_ok.mp h₃
  cases hpush
  obtain ⟨rfl, hτ⟩ := Lower.lift_run hvalue
  subst hτ
  cases h₄
  rw [StepM.run_attempt] at hattempt
  obtain ⟨hok, rfl⟩ := Prod.mk.inj hattempt
  obtain ⟨σ₁', frames, hget⟩ := StepM.run_bind_eq_ok.mp hpop
  obtain ⟨hσ, hget⟩ := hget
  cases hσ
  split at hget
  · cases hget
  case h_2 frame' frames hframes =>
    cases hget
    exact ⟨_, frames, Prod.ext (Except.ok.inj hok) rfl, hframes, rfl⟩

namespace Function

theorem bindParams_cons_ok {param : Param} {params : List Param} {reg : Register}
    {regs : List Register}
    (h : (bindParams (param :: params) (reg :: regs)).run σ = (.ok code, τ)) :
    ∃ slot copyCode restCode σ₁,
      (onFrame (Frame.addVariable param.ty param.name)).run σ = (.ok slot, σ₁) ∧
      Code.copy (.ofReg param.ty reg) slot.reservation = .ok copyCode ∧
      (bindParams params regs).run σ₁ = (.ok restCode, τ) ∧ code = copyCode ++ restCode := by
  obtain ⟨slot, σ₁, hslot, h₁⟩ := StepM.run_bind_eq_ok.mp h
  obtain ⟨copyCode, σ₂, hcopyCode, h₂⟩ := StepM.run_bind_eq_ok.mp h₁
  obtain ⟨restCode, σ₃, hrest, h₃⟩ := StepM.run_bind_eq_ok.mp h₂
  obtain ⟨hcopy, rfl⟩ := Lower.lift_run hcopyCode
  cases h₃
  exact ⟨slot, copyCode, restCode, _, hslot, hcopy, hrest, rfl⟩

theorem implicitReturn_ok {signature : Signature}
    (h : (implicitReturn signature).run σ = (.ok code, τ)) :
    ((signature.name = σ.options.entryPoint ∧ signature.returnTy = .int) ∧
        ((Stmt.ret (.literal (.int 0) .int)).lower signature).run σ = (.ok code, τ)) ∨
      (¬ (signature.name = σ.options.entryPoint ∧ signature.returnTy = .int) ∧ code = [] ∧ τ = σ) := by
  simp only [implicitReturn, StepM.run_bind, StepM.run_get, StepM.run_ite] at h
  split at h
  case isTrue hmain =>
    simp only [Bool.and_eq_true, decide_eq_true_eq] at hmain
    exact Or.inl ⟨hmain, h⟩
  case isFalse hmain =>
    simp only [Bool.and_eq_true, decide_eq_true_eq] at hmain
    cases h
    exact Or.inr ⟨hmain, rfl, rfl⟩

theorem lowerBody_ok {function : Function} (h : function.lowerBody.run σ = (.ok code, τ)) :
    ∃ paramCode bodyCode returnCode σ₁ σ₂,
      (bindParams function.signature.params Register.argBank).run σ = (.ok paramCode, σ₁) ∧
      (Stmt.lowerBlock function.signature function.body).run σ₁ = (.ok bodyCode, σ₂) ∧
      (implicitReturn function.signature).run σ₂ = (.ok returnCode, τ) ∧
      code = paramCode ++ bodyCode ++ returnCode := by
  obtain ⟨paramCode, σ₁, hparams, h₁⟩ := StepM.run_bind_eq_ok.mp h
  obtain ⟨bodyCode, σ₂, hbody, h₂⟩ := StepM.run_bind_eq_ok.mp h₁
  obtain ⟨returnCode, σ₃, hreturn, h₃⟩ := StepM.run_bind_eq_ok.mp h₂
  obtain ⟨live, σ₄, hlive, h₄⟩ := StepM.run_bind_eq_ok.mp h₃
  obtain ⟨-, f, fs, g, hframes, hrun, rfl⟩ := onFrame_ok hlive
  cases hrun
  split at h₄
  · cases h₄
    exact ⟨paramCode, bodyCode, returnCode, σ₁, σ₂, hparams, hbody, by rw [← hframes]; exact hreturn, rfl⟩
  · cases h₄

theorem compile_ok {function : Function} (h : function.compile.run σ = (.ok code, τ)) :
    ∃ bodyCode frame layout σ₁ frames,
      function.lowerBody.run { σ with frames := {} :: σ.frames } = (.ok bodyCode, σ₁) ∧
      σ₁.frames = frame :: frames ∧
      layout = FrameLayout.ofHighWater frame.highWater function.containsCalls ∧
      τ = Session.recordFunction function.name frame layout.totalSize { σ₁ with frames } ∧
      code = σ₁.options.functionHeader function.name ++ layout.prologue ++ bodyCode ++
        .label (.returnOf function.name) :: layout.epilogue := by
  obtain ⟨⟨bodyCode, frame⟩, σ₁, hbody, h₁⟩ := StepM.run_bind_eq_ok.mp h
  obtain ⟨σ₀, frames, hlower, hframes, rfl⟩ := Session.inFrame_ok hbody
  cases h₁
  exact ⟨bodyCode, frame, _, σ₀, frames, hlower, hframes, rfl, rfl, rfl⟩

end Function

end ArmBackend
