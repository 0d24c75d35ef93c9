import ArmBackend.Proofs.Function.Progress
import ArmBackend.Proofs.Stmt.Lowers

/-!
# Functions that are accepted

A function compiles exactly if there are registers for its parameters and its body is accepted in their
scope.
-/

namespace ArmBackend

open Session (onFrame Advances onFrame_ok)
open ArmBackend.Frame (Rests Binds)
open StepM (succeeds_bind_iff succeeds_bind_left succeeds_lift_bind)

variable {signatures : List Signature} {σ τ : Session} {f : Frame} {code : Code}

namespace Function

/-- Whether there are registers for the parameters, and the body may follow them. -/
def Accepted (signatures : List Signature) (function : Function) : Prop :=
  function.signature.params.length ≤ Register.argBank.length ∧
    Stmt.BlockAccepted signatures function.signature.returnTy False
      (function.signature.params.map Param.name).reverse function.body

structure Proper (signatures : List Signature) (function : Function) : Prop where
  sized : function.signature.Sized
  built : ∀ stmt ∈ function.body, stmt.Built
  proper : Stmt.AllProper signatures function.body

/-! ## Parameters -/

theorem bindParams_binds {params : List Param} {regs : List Register}
    (h : (bindParams params regs).run σ = (.ok code, τ)) :
    Advances (Binds (params.map Param.name).reverse) σ τ := by
  induction params generalizing σ code regs with
  | nil =>
    cases h
    exact (Advances.refl _).mono Rests.binds
  | cons param params ih =>
    cases regs with
    | nil => cases h
    | cons reg regs =>
      obtain ⟨slot, copyCode, restCode, σ₁, hslot, -, hrest, -⟩ := bindParams_cons_ok h
      rw [List.map_cons, List.reverse_cons]
      exact ((onFrame_ok hslot).1.mono Frame.addVariable_binds).comp (ih hrest) Binds.trans

theorem bindParams_succeeds {params : List Param} {regs : List Register}
    (hsized : ∀ param ∈ params, param.ty.storable = true) (h : σ.Hosts signatures f)
    (hquiet : f.temporaries = []) :
    (bindParams params regs).Succeeds σ ↔ params.length ≤ regs.length := by
  induction params generalizing σ f regs with
  | nil => exact iff_of_true ⟨_, _, rfl⟩ (Nat.zero_le _)
  | cons param params ih =>
    cases regs with
    | nil => exact iff_of_false nofun (Nat.not_succ_le_zero _)
    | cons reg regs =>
      obtain ⟨hsize, hsized⟩ := List.forall_mem_cons.mp hsized
      refine (Lower.addVariable_succeeds hsize param.name h hquiet).bind_iff fun slot σ₁ hslot => ?_
      obtain ⟨f₁, h₁, hbinds⟩ :=
        h.advances ((onFrame_ok hslot).1.mono Frame.addVariable_binds) Binds.sound
      obtain ⟨copyCode, hcopy⟩ := Code.copy_isOk (Reservation.isAssigned_ofReg param.ty reg)
        slot.isAssigned_reservation
      rw [List.length_cons, List.length_cons, Nat.add_le_add_iff_right,
        ← ih hsized h₁ (hbinds.temporaries.trans hquiet), succeeds_lift_bind, hcopy]
      simp only [Except.ok.injEq, exists_eq_left']
      exact succeeds_bind_left fun _ _ _ => StepM.succeeds_pure _ _

/-! ## Bodies -/

variable {function : Function}

theorem implicitReturn_succeeds {signature : Signature} (hsized : ∀ signature ∈ signatures, signature.Sized)
    (hsignature : signature.Sized) (h : σ.Hosts signatures f) (hquiet : f.temporaries = []) :
    (implicitReturn signature).Succeeds σ := by
  have hbuilt : (Stmt.ret (.literal (.int 0) .int)).Built := .ret (.literal (.int 0))
  have hret := hbuilt.lower_succeeds hsized hsignature (fun _ => trivial) h hquiet
  refine (StepM.succeeds_bind_of_ok (StepM.run_get σ)).mpr ?_
  by_cases hmain : signature.name = σ.options.entryPoint ∧ signature.returnTy = .int
  · rw [if_pos (by simpa using hmain)]
    exact hret.mpr ⟨by rw [hmain.2]; exact iff_of_false nofun nofun, fun _ => trivial⟩
  · rw [if_neg (by simpa using hmain)]
    exact StepM.succeeds_pure _ _

theorem lowerBody_succeeds (hsized : ∀ signature ∈ signatures, signature.Sized)
    (hproper : function.Proper signatures) (h : σ.Hosts signatures {}) :
    function.lowerBody.Succeeds σ ↔ function.Accepted signatures := by
  refine succeeds_bind_iff (bindParams_succeeds hproper.sized.params h rfl) fun paramCode σ₁ hparams => ?_
  obtain ⟨f₁, h₁, hbinds₁⟩ := h.advances (bindParams_binds hparams) Binds.sound
  have hnames : f₁.names = (function.signature.params.map Param.name).reverse :=
    hbinds₁.names.trans (List.append_nil _)
  have hloops : (f₁.loops ≠ []) = False := eq_false (not_not_intro hbinds₁.loops)
  rw [← hnames, ← hloops]
  rw [← Stmt.lowerBlock_succeeds hsized hproper.sized hproper.built hproper.proper h₁
    hbinds₁.temporaries]
  refine succeeds_bind_left fun bodyCode σ₂ hbody => ?_
  obtain ⟨f₂, h₂, hbinds₂⟩ := h₁.advances (Stmt.lowerBlock_binds hbody) Binds.sound
  have hquiet₂ : f₂.temporaries = [] := hbinds₂.temporaries.trans hbinds₁.temporaries
  refine (implicitReturn_succeeds hsized hproper.sized h₂ hquiet₂).bind
    fun returnCode σ₃ hreturn => ?_
  obtain ⟨f₃, h₃, hrest₃⟩ := h₂.rests (implicitReturn_rests hreturn)
  obtain ⟨fs, hf⟩ := h₃.frames
  have hlive : (onFrame (Frame.temporaries <$> get)).run σ₃ = (.ok [], σ₃) := by
    rw [Session.onFrame_run, hf]
    simp [hrest₃.temporaries, hquiet₂, ← hf]
  exact ⟨_, _, StepM.run_bind_eq_ok.mpr ⟨[], σ₃, hlive, rfl⟩⟩

end Function

theorem Session.inFrame_succeeds {R : Frame → Frame → Prop} {α : Type} {step : CompileM α}
    (hadvance : ∀ {σ a τ}, step.run σ = (.ok a, τ) → Advances R σ τ) :
    (inFrame step).Succeeds σ ↔ step.Succeeds { σ with frames := {} :: σ.frames } := by
  constructor
  · rintro ⟨⟨a, frame⟩, τ, hrun⟩
    obtain ⟨σ₁, frames, hstep, -⟩ := inFrame_ok hrun
    exact .of_ok hstep
  · rintro ⟨a, τ, hrun⟩
    obtain ⟨frame, hframe, -⟩ := (hadvance hrun).frames rfl
    exact .of_ok (inFrame_run hrun hframe)

theorem Frame.Sound.empty : Frame.Sound {} := ⟨.empty, nofun⟩

namespace Function

variable {function : Function}

/-- A function of checked statements compiles exactly if it is accepted. -/
theorem compile_succeeds (hknows : σ.Knows signatures) (hproper : function.Proper signatures) :
    function.compile.Succeeds σ ↔ function.Accepted signatures := by
  have hhosts : Session.Hosts signatures { σ with frames := {} :: σ.frames } {} :=
    ⟨⟨_, rfl⟩, .empty, hknows.of_tables rfl rfl⟩
  rw [← lowerBody_succeeds hknows.sized hproper hhosts, ← Session.inFrame_succeeds lowerBody_peaks]
  exact succeeds_bind_left fun _ _ _ => ⟨_, _, rfl⟩

theorem compile_tables (h : function.compile.run σ = (.ok code, τ)) :
    τ.declared = σ.declared ∧ τ.defined = σ.defined := by
  obtain ⟨bodyCode, frame, layout, σ₁, frames, hbody, -, -, rfl, -⟩ := compile_ok h
  have hpeaks := lowerBody_peaks hbody
  exact ⟨hpeaks.declared, hpeaks.defined⟩

end Function

end ArmBackend
