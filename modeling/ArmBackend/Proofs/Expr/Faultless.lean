import ArmBackend.Proofs.Expr.Lowers
import ArmBackend.Proofs.Expr.Outcome

/-!
# Expressions that the program is to blame for

On a valid frame an expression without arrays fails with no internal error, whatever types its nodes
have.
-/

namespace ArmBackend

open CompileError (External)
open Session (onFrame Advances onFrame_ok)
open ArmBackend.Frame (Rests Over Follows)

namespace StepM

variable {σ α β : Type} {step : StepM σ α} {next : α → StepM σ β} {s : σ}

/-- From this state the step fails with no internal error. -/
def Blameless (step : StepM σ α) (s : σ) : Prop := Allows External (step.run s).1

namespace Blameless

theorem pure (a : α) : (pure a : StepM σ α).Blameless s := .ok a

theorem throw {e : CompileError} (h : e.External) : (throw e : StepM σ α).Blameless s := .error h

theorem lift {outcome : Except CompileError α} (h : Allows External outcome) :
    (monadLift outcome : StepM σ α).Blameless s := h

theorem bind (h : step.Blameless s)
    (hnext : ∀ a t, step.run s = (.ok a, t) → (next a).Blameless t) :
    (step >>= next).Blameless s := allows_bind h hnext

theorem get_bind {next : σ → StepM σ β} (h : (next s).Blameless s) : (get >>= next).Blameless s :=
  bind (.ok s) fun _ _ hrun => by cases hrun; exact h

end Blameless

theorem Succeeds.blameless (h : step.Succeeds s) : step.Blameless s := by
  obtain ⟨a, t, hrun⟩ := h
  exact .of_ok (congrArg Prod.fst hrun)

end StepM

open StepM (Blameless)

variable {σ τ : Session} {f g : Frame} {target : Reservation} {args : List Operand}
  {regs : List Register}

/-! ## The innermost frame -/

namespace Session

structure Holds (σ : Session) (f : Frame) : Prop where
  frames : ∃ fs, σ.frames = f :: fs
  valid : f.Valid

namespace Holds

theorem advances {R : Frame → Frame → Prop} (h : σ.Holds f) (hadvance : Advances R σ τ)
    (hvalid : ∀ {g}, R f g → g.Valid) : ∃ g, τ.Holds g ∧ R f g := by
  obtain ⟨fs, hf⟩ := h.frames
  obtain ⟨g, hg, hR⟩ := hadvance.frames hf
  exact ⟨g, ⟨⟨fs, hg⟩, hvalid hR⟩, hR⟩

theorem rests (h : σ.Holds f) (hadvance : Advances Rests σ τ) : ∃ g, τ.Holds g ∧ Rests f g :=
  h.advances hadvance fun hrest => h.valid.of_rests hrest

theorem onFrame {α : Type} {operation : FrameM α} (h : σ.Holds f) (hblameless : operation.Blameless f) :
    (onFrame operation).Blameless σ := by
  obtain ⟨fs, hf⟩ := h.frames
  rw [Blameless, onFrame_run, hf]
  exact hblameless

theorem resolve (h : σ.Holds f) (name : String) :
    (Session.onFrame (Frame.resolve name)).Blameless σ :=
  h.onFrame fun _ he => (Frame.resolve_fault (Prod.ext he rfl)).1 ▸ nofun

theorem reserveTemp_bind {α : Type} {ty : Ty} {next : Reservation → CompileM α} (h : σ.Holds f)
    (hnext : ∀ res τ g, (Session.onFrame (Frame.reserveTemp ty)).run σ = (.ok res, τ) → τ.Holds g →
      g.temporaries ≠ [] → res.isAssigned = true → (next res).Blameless τ) :
    (Session.onFrame (Frame.reserveTemp ty) >>= next).Blameless σ := by
  refine .bind (h.onFrame fun _ he => Frame.reserveTemp_fault (Prod.ext he rfl) ▸ nofun)
    fun res τ hres => ?_
  obtain ⟨g, hg, hrun⟩ := h.advances (onFrame_ok hres).1 fun hrun => h.valid.reserveTemp hrun
  exact hnext res τ g hres hg (Frame.reserveTemp_ne_nil hrun) (Frame.reserveTemp_assigned hrun).1

theorem releaseTemp_bind {α : Type} {next : Unit → CompileM α} (h : σ.Holds f)
    (hne : f.temporaries ≠ [])
    (hnext : ∀ u τ, (Session.onFrame Frame.releaseTemp).run σ = (.ok u, τ) → (next u).Blameless τ) :
    (Session.onFrame Frame.releaseTemp >>= next).Blameless σ := by
  obtain ⟨fs, hf⟩ := h.frames
  exact .bind ((onFrame_succeeds hf).mpr (h.valid.releaseTemp_succeeds hne)).blameless hnext

end Holds

end Session

structure Operand.Blameless (operand : Operand) : Prop where
  keeps : operand.Keeps Rests
  lower : ∀ {target : Reservation} {σ : Session} {f : Frame}, target.isAssigned = true → σ.Holds f →
    (operand.lower target).Blameless σ

namespace Lower

/-! ## Operators and addresses -/

theorem binary_blameless {op : BinOp} {ty : Ty} {lhs rhs : Operand} (hlhs : lhs.Blameless)
    (hrhs : rhs.Blameless) (htarget : target.isAssigned = true) (h : σ.Holds f) :
    (binary op ty target lhs rhs).Blameless σ := by
  refine .bind (.lift (Check.binary_allows op lhs.ty rhs.ty)) fun _ _ hcheck => ?_
  obtain ⟨-, rfl⟩ := lift_run hcheck
  refine h.reserveTemp_bind fun left σ₁ f₁ hleft h₁ hne₁ hassigned => ?_
  refine .bind (hlhs.lower hassigned h₁) fun leftCode σ₂ hleftCode => ?_
  obtain ⟨f₂, h₂, hrest₂⟩ := h₁.rests (hlhs.keeps _ hleftCode)
  refine h₂.reserveTemp_bind fun right σ₃ f₃ hright h₃ hne₃ hassigned' => ?_
  refine .bind (hrhs.lower hassigned' h₃) fun rightCode σ₄ hrightCode => ?_
  have hadvance₄ := hrhs.keeps _ hrightCode
  obtain ⟨f₄, h₄, hrest₄⟩ := h₃.rests hadvance₄
  obtain ⟨code, hcode⟩ := op.code_isOk htarget hassigned hassigned'
  refine .bind (.lift (.of_ok hcode)) fun _ _ hrun => ?_
  obtain ⟨-, rfl⟩ := lift_run hrun
  refine h₄.releaseTemp_bind (hrest₄.temporaries ▸ hne₃) fun _ σ₅ hrelease => ?_
  -- The first release leads back to the frame in which the left operand is in place.
  obtain ⟨f₅, h₅, hrest₅⟩ :=
    h₂.rests (Advances.bracket Frame.growth_rests hright hadvance₄ hrelease)
  have hne₅ : f₅.temporaries ≠ [] := by rwa [hrest₅.temporaries, hrest₂.temporaries]
  exact h₅.releaseTemp_bind hne₅ fun _ _ _ => .pure _

theorem unary_blameless {op : UnOp} {operand : Operand} (hoperand : operand.Blameless)
    (hop : op ≠ .addrOf) (htarget : target.isAssigned = true) (h : σ.Holds f) :
    (unary op target operand).Blameless σ := by
  refine .bind (.lift (Check.unary_allows op operand.ty)) fun _ _ hcheck => ?_
  obtain ⟨hok, rfl⟩ := lift_run hcheck
  have haccepts : op.accepts operand.ty = true := Check.unary_eq_ok.mp hok
  cases target.register? with
  | some reg =>
    refine .bind (hoperand.lower (Reservation.isAssigned_ofReg _ reg) h) fun _ σ₁ _ => ?_
    obtain ⟨code, hcode⟩ := UnOp.code_isOk htarget (Reservation.isAssigned_ofReg operand.ty reg) haccepts hop
    exact .bind (.lift (.of_ok hcode)) fun _ _ _ => .pure _
  | none =>
    refine h.reserveTemp_bind fun res σ₁ f₁ hres h₁ hne₁ hassigned => ?_
    refine .bind (hoperand.lower hassigned h₁) fun _ σ₂ hcode => ?_
    obtain ⟨f₂, h₂, hrest₂⟩ := h₁.rests (hoperand.keeps _ hcode)
    obtain ⟨-, f', _, _, -, hrun, -⟩ := onFrame_ok hres
    have hty : res.ty = operand.ty := (Frame.reserveTemp_assigned hrun).2
    obtain ⟨code, hcode⟩ := UnOp.code_isOk htarget hassigned (hty ▸ haccepts) hop
    refine .bind (.lift (.of_ok hcode)) fun _ _ hrun => ?_
    obtain ⟨-, rfl⟩ := lift_run hrun
    exact h₂.releaseTemp_bind (hrest₂.temporaries ▸ hne₁) fun _ _ _ => .pure _

theorem address_blameless (htarget : target.isAssigned = true) (build : Register → Code) :
    Allows External (address target build) := by
  obtain ⟨code, hcode⟩ := address_isOk htarget build
  exact .of_ok hcode

theorem addressOf_blameless {operand : Expr} (htarget : target.isAssigned = true) (h : σ.Holds f) :
    (addressOf target operand).Blameless σ := by
  cases operand with
  | var name ty =>
    exact .bind (h.resolve name) fun slot _ _ => .lift (address_blameless htarget _)
  | _ => exact .throw nofun

/-! ## Calls -/

theorem shield_blameless (hargs : ∀ arg ∈ args, arg.Blameless) (h : σ.Holds f) :
    (shield args regs).Blameless σ := by
  induction args generalizing regs σ f with
  | nil => exact .pure _
  | cons arg args ih =>
    have hrest : ∀ arg ∈ args, arg.Blameless := fun other hother =>
      hargs other (List.mem_cons_of_mem _ hother)
    cases regs with
    | nil => exact .pure _
    | cons reg regs =>
      rw [shield]
      split
      · refine h.reserveTemp_bind fun res σ₁ f₁ _ h₁ _ hassigned => ?_
        refine .bind ((hargs arg List.mem_cons_self).lower hassigned h₁) fun _ σ₂ hcode => ?_
        obtain ⟨f₂, h₂, -⟩ := h₁.rests ((hargs arg List.mem_cons_self).keeps _ hcode)
        exact .bind (ih hrest h₂) fun _ _ _ => .pure _
      · exact ih hrest h

theorem direct_blameless (hargs : ∀ arg ∈ args, arg.Blameless) (h : σ.Holds f) :
    (direct args regs).Blameless σ := by
  induction args generalizing regs σ f with
  | nil => exact .pure _
  | cons arg args ih =>
    have hrest : ∀ arg ∈ args, arg.Blameless := fun other hother =>
      hargs other (List.mem_cons_of_mem _ hother)
    cases regs with
    | nil => exact .pure _
    | cons reg regs =>
      rw [direct]
      split
      · exact ih hrest h
      · refine .bind ((hargs arg List.mem_cons_self).lower (Reservation.isAssigned_ofReg _ reg) h)
          fun _ σ₁ hcode => ?_
        obtain ⟨f₁, h₁, -⟩ := h.rests ((hargs arg List.mem_cons_self).keeps _ hcode)
        exact .bind (ih hrest h₁) fun _ _ _ => .pure _

theorem arguments_blameless (hargs : ∀ arg ∈ args, arg.Blameless) (h : σ.Holds f) :
    (arguments args regs).Blameless σ := by
  have hkeeps : ∀ arg ∈ args, arg.Keeps Rests := fun arg harg => (hargs arg harg).keeps
  refine .bind (shield_blameless hargs h) fun ⟨shieldCode, shielded⟩ σ₁ hshield => ?_
  obtain ⟨hadvance, hassigned⟩ := shield_follows hkeeps hshield
  obtain ⟨fs, hf⟩ := h.frames
  obtain ⟨f₁, hf₁, hover, -⟩ := (shield_advances Frame.growth_rests hkeeps hshield).frames hf
  obtain ⟨f₁', hf₁', hfollows⟩ := hadvance.frames hf
  cases hf₁.symm.trans hf₁'
  have h₁ : σ₁.Holds f₁ := ⟨⟨fs, hf₁⟩, hfollows.valid h.valid⟩
  refine .bind (direct_blameless hargs h₁) fun directCode σ₂ hdirect => ?_
  obtain ⟨f₂, h₂, hrest₂⟩ := h₁.rests (direct_advances Frame.growth_rests hkeeps hdirect)
  obtain ⟨copyCode, hcopy⟩ := unshield_isOk hassigned
  refine .bind (.lift (.of_ok hcopy)) fun _ _ hrun => ?_
  obtain ⟨-, rfl⟩ := lift_run hrun
  obtain ⟨fs₂, hf₂⟩ := h₂.frames
  exact .bind (releaseTemps_succeeds hf₂ h₂.valid (hover.rests hrest₂)).blameless fun _ _ _ => .pure _

theorem result_blameless (ty : Ty) {target : Option Reservation}
    (htarget : ∀ res ∈ target, res.isAssigned = true) : Allows External (result ty target) := by
  obtain ⟨code, hcode⟩ := result_isOk ty htarget
  exact .of_ok hcode

theorem functionCall_blameless {callee : String} {target : Option Reservation}
    (hargs : ∀ arg ∈ args, arg.Blameless) (htarget : ∀ res ∈ target, res.isAssigned = true)
    (h : σ.Holds f) : (functionCall callee args target).Blameless σ := by
  have hkeeps : ∀ arg ∈ args, arg.Keeps Rests := fun arg harg => (hargs arg harg).keeps
  have hsignature : (Session.signatureOf callee).Blameless σ := by
    refine .get_bind ?_
    split
    · exact .pure _
    · exact .throw nofun
  refine .bind hsignature fun signature _ hrun => ?_
  obtain ⟨-, rfl⟩ := Session.signatureOf_ok hrun
  refine .bind (.lift (checkCall_allows signature args target)) fun _ _ hcheck => ?_
  obtain ⟨-, rfl⟩ := lift_run hcheck
  refine .bind (.ok ()) fun _ σ₁ hmark => ?_
  cases hmark
  obtain ⟨f₁, h₁, -⟩ := h.rests (Session.markUsed_advances callee _)
  refine .bind (.lift (argRegisters_allows args.length)) fun regs _ hregs => ?_
  obtain ⟨-, rfl⟩ := lift_run hregs
  refine .bind (arguments_blameless hargs h₁) fun argCode σ₂ hargCode => ?_
  obtain ⟨f₂, h₂, -⟩ := h₁.rests (arguments_advances Frame.growth_rests hkeeps hargCode)
  refine .bind (h₂.onFrame (.ok f₂.liveTempRegs)) fun live σ₃ _ => ?_
  exact .get_bind (.bind (.ok ()) fun _ _ _ => .bind (.ok ()) fun _ _ _ =>
    .bind (.lift (result_blameless _ htarget)) fun _ _ _ => .pure _)

theorem trapOperands_blameless {number : Operand} (hnumber : number.Blameless)
    (hargs : ∀ arg ∈ args, arg.Blameless) (h : σ.Holds f) :
    (trapOperands number args regs).Blameless σ := by
  have hkeeps : ∀ arg ∈ args, arg.Keeps Rests := fun arg harg => (hargs arg harg).keeps
  have htarget := Reservation.isAssigned_ofReg .int .trapNumber
  rw [trapOperands]
  split
  · refine h.reserveTemp_bind fun res σ₁ f₁ _ h₁ hne₁ hassigned => ?_
    refine .bind (hnumber.lower hassigned h₁) fun _ σ₂ hcode => ?_
    obtain ⟨f₂, h₂, hrest₂⟩ := h₁.rests (hnumber.keeps _ hcode)
    refine .bind (arguments_blameless hargs h₂) fun _ σ₃ hargCode => ?_
    obtain ⟨f₃, h₃, hrest₃⟩ := h₂.rests (arguments_advances Frame.growth_rests hkeeps hargCode)
    obtain ⟨copyCode, hcopy⟩ := Code.copy_isOk hassigned htarget
    refine .bind (.lift (.of_ok hcopy)) fun _ _ hrun => ?_
    obtain ⟨-, rfl⟩ := lift_run hrun
    have hne₃ : f₃.temporaries ≠ [] := by rwa [hrest₃.temporaries, hrest₂.temporaries]
    exact h₃.releaseTemp_bind hne₃ fun _ _ _ => .pure _
  · refine .bind (arguments_blameless hargs h) fun _ σ₁ hargCode => ?_
    obtain ⟨f₁, h₁, -⟩ := h.rests (arguments_advances Frame.growth_rests hkeeps hargCode)
    exact .bind (hnumber.lower htarget h₁) fun _ _ _ => .pure _

theorem trap_blameless {operands : List Operand} {target : Option Reservation}
    (hoperands : ∀ operand ∈ operands, operand.Blameless)
    (htarget : ∀ res ∈ target, res.isAssigned = true) (h : σ.Holds f) :
    (trap operands target).Blameless σ := by
  cases operands with
  | nil => exact .throw nofun
  | cons number args =>
    obtain ⟨hnumber, hargs⟩ := List.forall_mem_cons.mp hoperands
    refine .bind (.lift (argRegisters_allows args.length)) fun regs _ hregs => ?_
    obtain ⟨-, rfl⟩ := lift_run hregs
    exact .bind (trapOperands_blameless hnumber hargs h) fun _ _ _ => .bind (.ok ()) fun _ _ _ =>
      .bind (.lift (result_blameless _ htarget)) fun _ _ _ => .pure _

theorem call_blameless {callee : String} {target : Option Reservation}
    (hargs : ∀ arg ∈ args, arg.Blameless) (htarget : ∀ res ∈ target, res.isAssigned = true)
    (h : σ.Holds f) : (call callee args target).Blameless σ := by
  rw [call]
  split
  · exact trap_blameless hargs htarget h
  · exact functionCall_blameless hargs htarget h

end Lower

/-! ## All expressions -/

namespace Expr

theorem operand_blameless {expr : Expr} (hfree : expr.arrayFree = true) : expr.operand.Blameless := by
  refine ⟨Expr.operand_rests hfree, fun {target σ f} htarget h => ?_⟩
  have hoperand : ∀ {expr : Expr}, expr.arrayFree = true → (expr.arrayFree = true →
      ∀ {target σ f}, target.isAssigned = true → σ.Holds f → (expr.lower target).Blameless σ) →
        expr.operand.Blameless := fun {expr} hfree ih =>
    ⟨Expr.operand_rests hfree, ih hfree⟩
  induction expr using Expr.induct generalizing target σ f with
  | literal value ty =>
    obtain ⟨code, hcode⟩ := Code.putConstant_isOk htarget value.bits
    exact .lift (.of_ok hcode)
  | var name ty =>
    refine .bind (h.resolve name) fun slot _ _ => ?_
    obtain ⟨code, hcode⟩ := Code.copy_isOk slot.isAssigned_reservation htarget
    exact .lift (.of_ok hcode)
  | deref pointer ty ih => exact Lower.unary_blameless (hoperand hfree ih) nofun htarget h
  | call callee args ty ih =>
    refine Lower.call_blameless (forall_operands.mpr fun arg harg => ?_) (by rintro _ ⟨⟩; exact htarget) h
    exact hoperand (allArrayFree_eq_true.mp hfree arg harg) (ih arg harg)
  | binary op lhs rhs ty ihl ihr =>
    obtain ⟨hl, hr⟩ := Bool.and_eq_true_iff.mp hfree
    exact Lower.binary_blameless (hoperand hl ihl) (hoperand hr ihr) htarget h
  | unary op operand ty ih =>
    simp only [Expr.operand, Expr.lower]
    split
    case isTrue => exact Lower.addressOf_blameless htarget h
    case isFalse hop => exact Lower.unary_blameless (hoperand hfree ih) hop htarget h
  | array elements ty => cases hfree
  | str text ty =>
    exact .bind (.ok _) fun label _ _ => .lift (Lower.address_blameless htarget _)
  | empty ty => exact .pure _

end Expr

end ArmBackend
