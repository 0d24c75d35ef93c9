import ArmBackend.Proofs.Function.Discipline
import ArmBackend.Proofs.Program.Progress
import ArmBackend.Proofs.Stmt.Faultless

/-!
# Programs that are to blame for their errors

A program without arrays fails with no internal error, whatever its trees say about types and whatever
the options are.
-/

namespace ArmBackend

open CompileError (External)
open Session (onFrame Holds outline onFrame_ok)
open ArmBackend.Frame (Retains)
open StepM (Blameless)

variable {σ τ : Session} {f : Frame}

namespace Function

variable {function : Function}

def arrayFree (function : Function) : Bool := Stmt.blockArrayFree function.body

theorem bindParams_blameless {params : List Param} {regs : List Register} (h : σ.Holds f)
    (hquiet : f.temporaries = []) : (bindParams params regs).Blameless σ := by
  induction params generalizing regs σ f with
  | nil => exact .pure _
  | cons param params ih =>
    cases regs with
    | nil => exact .throw nofun
    | cons reg regs =>
      refine h.addVariable_bind hquiet fun slot σ₁ f₁ h₁ hquiet₁ => ?_
      obtain ⟨code, hcode⟩ :=
        Code.copy_isOk (Reservation.isAssigned_ofReg param.ty reg) slot.isAssigned_reservation
      refine .bind (.lift (.of_ok hcode)) fun _ _ hrun => ?_
      obtain ⟨-, rfl⟩ := Lower.lift_run hrun
      exact .bind (ih h₁ hquiet₁) fun _ _ _ => .pure _

theorem implicitReturn_blameless {signature : Signature} (h : σ.Holds f) :
    (implicitReturn signature).Blameless σ := by
  refine .get_bind ?_
  split
  · exact Lower.ret_blameless rfl h
  · exact .pure _

theorem lowerBody_blameless (hfree : function.arrayFree = true) {fs : List Frame}
    (hf : σ.frames = {} :: fs) : function.lowerBody.Blameless σ := by
  have h : σ.Holds {} := ⟨⟨fs, hf⟩, .empty⟩
  refine .bind (bindParams_blameless h rfl) fun _ σ₁ hparams => ?_
  obtain ⟨f₁, h₁, hquiet₁⟩ := h.retains (bindParams_retains hparams)
  refine .bind (Stmt.lowerBlock_blameless hfree h₁ hquiet₁) fun _ σ₂ hbody => ?_
  obtain ⟨f₂, h₂, htemporaries⟩ := h₁.retains (Stmt.lowerBlock_retains hbody)
  refine .bind (implicitReturn_blameless h₂) fun _ σ₃ hret => ?_
  obtain ⟨f₃, h₃, hrest⟩ := h₂.rests (implicitReturn_rests hret)
  obtain ⟨fs₃, hf₃⟩ := h₃.frames
  exact (Session.check_upholds hf₃ (by rw [hrest.temporaries, htemporaries, hquiet₁])).allows

theorem compile_blameless (hfree : function.arrayFree = true) (σ : Session) :
    function.compile.Blameless σ := by
  have hbody : (Session.inFrame function.lowerBody).Upholds outline External σ :=
    Session.inFrame_upholds ⟨(lowerBody_upholds rfl).view, lowerBody_blameless hfree rfl⟩
  exact .bind hbody.allows fun ⟨_, _⟩ _ _ => .bind (.ok ()) fun _ _ _ => .get_bind (.pure _)

end Function

/-! ## Tables -/

namespace Session

theorem declare_blameless (signature : Signature) (σ : Session) : (declare signature).Blameless σ := by
  refine .get_bind ?_
  split
  · exact .throw nofun
  · exact .ok _

theorem define_blameless (signature : Signature) (σ : Session) : (define signature).Blameless σ := by
  intro e he
  simp only [define, StepM.run_bind, StepM.run_get] at he
  split at he
  · cases he
    rintro ⟨⟩
  · split at he <;> cases he
    rintro ⟨⟩

end Session

theorem StepM.forM_blameless {σ α : Type} {step : α → StepM σ Unit} (h : ∀ a s, (step a).Blameless s)
    (items : List α) (s : σ) : (items.forM step).Blameless s := by
  induction items generalizing s with
  | nil => exact .pure _
  | cons item items ih => exact .bind (h item s) fun _ t _ => ih t

/-! ## The program -/

namespace Program

def arrayFree (program : Program) : Bool := program.functions.all Function.arrayFree

theorem compileFunctions_blameless {functions : List Function}
    (hfree : ∀ function ∈ functions, function.arrayFree = true) (σ : Session) :
    (compileFunctions functions).Blameless σ := by
  induction functions generalizing σ with
  | nil => exact .pure _
  | cons function functions ih =>
    exact .bind (Function.compile_blameless (hfree function List.mem_cons_self) σ) fun _ σ₁ _ =>
      .bind (ih (fun other hother => hfree other (List.mem_cons_of_mem _ hother)) σ₁)
        fun _ _ _ => .pure _

theorem compile_blameless {program : Program} (hfree : program.arrayFree = true) (σ : Session) :
    program.compile.Blameless σ := by
  have hdefine : ∀ (function : Function) σ, (Session.define function.signature).Blameless σ :=
    fun function => Session.define_blameless function.signature
  refine .bind (StepM.forM_blameless Session.declare_blameless _ σ) fun _ σ₁ _ => ?_
  refine .bind (StepM.forM_blameless hdefine _ σ₁) fun _ σ₂ _ => ?_
  refine .bind (compileFunctions_blameless (List.all_eq_true.mp hfree) σ₂) fun _ _ _ => ?_
  exact .get_bind (.pure _)

/-- A program without arrays that is not compiled is wrong or beyond a limit. -/
theorem error_kind {program : Program} (hfree : program.arrayFree = true) (options : Options)
    {e : CompileError} (h : program.assembly options = .error e) :
    e.kind = .user ∨ e.kind = .limitation := by
  have hblameless := compile_blameless hfree (Session.start options)
  have hexternal : e.External := by
    refine hblameless e ?_
    rw [assembly] at h
    split at h
    case _ outcome session hrun =>
      rw [hrun]
      cases outcome with
      | error e' => exact congrArg Except.error (Except.error.inj h)
      | ok code => cases h
  cases hkind : e.kind with
  | user => exact Or.inl rfl
  | limitation => exact Or.inr rfl
  | internal => exact absurd hkind hexternal

/-- `int main() { printi(1 + *2); }`, a tree that no checked constructor makes. It fails while the
temporary of the sum is live. -/
theorem error_kind_deref :
    let pointer : Expr := .literal (.int 2) .int
    let sum : Expr := .binary (.arith .add) (.literal (.int 1) .int) (.deref pointer .int) .int
    let program : Program := ⟨[], [⟨⟨.int, "main", []⟩, [.call "printi" [sum]]⟩]⟩
    program.assembly {} = .error (.typeViolation (.unaryOperand .deref .int)) ∧
      ((CompileError.typeViolation (.unaryOperand .deref .int)).kind = .user ∨
        (CompileError.typeViolation (.unaryOperand .deref .int)).kind = .limitation) := by
  intro pointer sum program
  have h : program.assembly {} = .error (.typeViolation (.unaryOperand .deref .int)) := by
    decide +kernel
  have hfree : program.arrayFree = true := by decide
  exact ⟨h, error_kind hfree {} h⟩

end Program

end ArmBackend
