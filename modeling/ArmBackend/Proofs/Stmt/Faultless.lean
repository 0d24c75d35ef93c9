import ArmBackend.Proofs.Expr.Faultless
import ArmBackend.Proofs.Stmt.Outcome
import ArmBackend.Proofs.Stmt.Retains

/-!
# Statements that the program is to blame for

Without arrays no statement fails with an internal error. Between statements no temporary is live, so
variables may come and go.
-/

namespace ArmBackend

open CompileError (External)
open Session (onFrame Tight Holds Advances onFrame_ok)
open ArmBackend.Frame (Rests Retains)
open StepM (Blameless)

namespace Stmt

mutual

def arrayFree : Stmt → Bool
  | .init _ _ value | .assign _ value | .ret value => value.arrayFree
  | .store pointer value => pointer.arrayFree && value.arrayFree
  | .call _ args => Expr.allArrayFree args
  | .ifElse cond thenBlock elseBlock =>
    cond.arrayFree && (blockArrayFree thenBlock && blockArrayFree elseBlock)
  | .loop cond body => cond.arrayFree && blockArrayFree body
  | .declare .. | .breakLoop | .continueLoop => true

def blockArrayFree : List Stmt → Bool
  | [] => true
  | stmt :: stmts => stmt.arrayFree && blockArrayFree stmts

end

theorem blockArrayFree_iff {stmts : List Stmt} :
    blockArrayFree stmts = true ↔ ∀ stmt ∈ stmts, stmt.arrayFree = true := by
  induction stmts with
  | nil => simp [blockArrayFree]
  | cons stmt stmts ih => simp [blockArrayFree, ih]

end Stmt

variable {σ τ : Session} {f g : Frame} {expr : Expr} {target : Reservation} {signature : Signature}

/-! ## Variables of a quiet frame -/

namespace Session.Holds

variable {α : Type}

theorem retains (h : σ.Holds f) (hadvance : Advances Retains σ τ) :
    ∃ g, τ.Holds g ∧ g.temporaries = f.temporaries := by
  obtain ⟨g, hg, hretains⟩ := h.advances hadvance fun hretains => hretains.valid h.valid
  exact ⟨g, hg, hretains.temporaries⟩

theorem reserveVariable_bind {ty : Ty} {next : Slot → CompileM α} (h : σ.Holds f)
    (hquiet : f.temporaries = [])
    (hnext : ∀ slot τ g, τ.Holds g → g.temporaries = [] → g.locals = slot :: f.locals →
      (next slot).Blameless τ) : (Session.onFrame (Frame.reserveVariable ty) >>= next).Blameless σ := by
  refine .bind (h.onFrame fun e he => ?_) fun slot τ hslot => ?_
  · rcases Frame.reserveVariable_fault (Prod.ext he rfl) with rfl | ⟨-, hne⟩
    · exact nofun
    · exact absurd hquiet hne
  · obtain ⟨g, hg, hrun⟩ := h.advances (onFrame_ok hslot).1 fun hrun => h.valid.reserveVariable hrun
    obtain ⟨-, -, -, rfl⟩ := Frame.reserveVariable_ok hrun
    exact hnext slot τ _ hg hquiet rfl

theorem addVariable_bind {ty : Ty} {name : String} {next : Slot → CompileM α} (h : σ.Holds f)
    (hquiet : f.temporaries = [])
    (hnext : ∀ slot τ g, τ.Holds g → g.temporaries = [] → (next slot).Blameless τ) :
    (Session.onFrame (Frame.addVariable ty name) >>= next).Blameless σ := by
  refine .bind (h.onFrame fun e he => ?_) fun slot τ hslot => ?_
  · rcases Frame.addVariable_fault (Prod.ext he rfl) with rfl | ⟨-, hne⟩
    · exact nofun
    · exact absurd hquiet hne
  · obtain ⟨g, hg, hrun⟩ := h.advances (onFrame_ok hslot).1 fun hrun => h.valid.addVariable hrun
    obtain ⟨-, -, -, rfl⟩ := Frame.addVariable_ok hrun
    exact hnext slot τ _ hg hquiet

theorem releaseVariable_bind {next : Unit → CompileM α} {slot : Slot} {locals : List Slot}
    (h : σ.Holds f) (hquiet : f.temporaries = []) (hlocals : f.locals = slot :: locals)
    (hnext : ∀ u τ g, τ.Holds g → g.temporaries = [] → g.locals = locals → (next u).Blameless τ) :
    (Session.onFrame Frame.releaseVariable >>= next).Blameless σ := by
  obtain ⟨fs, hf⟩ := h.frames
  have hne : f.locals ≠ [] := hlocals ▸ List.cons_ne_nil _ _
  have hsucceeds := (onFrame_succeeds hf).mpr (h.valid.releaseVariable_succeeds hquiet hne)
  refine .bind hsucceeds.blameless fun u τ hrelease => ?_
  obtain ⟨g, hg, hrun⟩ := h.advances (onFrame_ok hrelease).1
    fun hrun => (Frame.Follows.releaseVariable hrun).valid h.valid
  obtain ⟨-, _, _, _, _, hslots, -, rfl⟩ := Frame.releaseVariable_ok hrun
  cases hlocals.symm.trans hslots
  exact hnext u τ _ hg hquiet rfl

end Session.Holds

theorem Session.inLoop_blameless {α : Type} {id : Nat} {step : CompileM α} (htight : Tight step)
    (h : σ.Holds f) (hstep : ∀ {τ}, τ.Holds (f.pushLoop id) → step.Blameless τ) :
    (inLoop id step).Blameless σ := by
  obtain ⟨fs, hf⟩ := h.frames
  have hupholds : (inLoop id step).Upholds outline External σ := by
    refine inLoop_upholds (fun hnone => ?_) fun {f' fs'} hf' => ⟨(htight _).view, ?_⟩
    · cases hf.symm.trans hnone
    · cases hf.symm.trans hf'
      exact hstep ⟨⟨fs, rfl⟩, h.valid.pushLoop id⟩
  exact hupholds.allows

namespace Lower

theorem value_blameless (hfree : expr.arrayFree = true) (htarget : target.isAssigned = true)
    (h : σ.Holds f) : (value target expr).Blameless σ := by
  refine .bind (.lift Check.value_allows) fun _ _ hcheck => ?_
  obtain ⟨-, rfl⟩ := lift_run hcheck
  exact (Expr.operand_blameless hfree).lower htarget h

theorem condition_blameless (hfree : expr.arrayFree = true) (h : σ.Holds f) :
    (condition expr).Blameless σ :=
  .bind (value_blameless hfree (Reservation.isAssigned_ofReg _ _) h) fun _ _ _ => .pure _

theorem init_blameless {ty : Ty} {name : String} (hfree : expr.arrayFree = true) (h : σ.Holds f)
    (hquiet : f.temporaries = []) : (init ty name expr).Blameless σ := by
  refine .bind (.lift Check.arrayTarget_allows) fun _ _ hcheck => ?_
  obtain ⟨-, rfl⟩ := lift_run hcheck
  exact h.addVariable_bind hquiet fun slot τ g hg _ =>
    value_blameless hfree slot.isAssigned_reservation hg

theorem held_blameless {ty : Ty} {lower : Reservation → CompileM Code}
    (hlower : ∀ {temp σ f}, temp.isAssigned = true → σ.Holds f → (lower temp).Blameless σ)
    (hkeeps : ∀ temp, Session.Keeps Rests (lower temp)) (htarget : target.isAssigned = true)
    (h : σ.Holds f) :
    (do
      let temp ← onFrame (Frame.reserveTemp ty)
      let code ← lower temp
      let copyCode ← Code.copy temp target
      onFrame Frame.releaseTemp
      return code ++ copyCode : CompileM Code).Blameless σ := by
  refine h.reserveTemp_bind fun temp σ₁ f₁ _ h₁ hne₁ hassigned => ?_
  refine .bind (hlower hassigned h₁) fun _ σ₂ hcode => ?_
  obtain ⟨f₂, h₂, hrest₂⟩ := h₁.rests (hkeeps temp hcode)
  obtain ⟨copyCode, hcopy⟩ := Code.copy_isOk hassigned htarget
  refine .bind (.lift (.of_ok hcopy)) fun _ _ hrun => ?_
  obtain ⟨-, rfl⟩ := lift_run hrun
  exact h₂.releaseTemp_bind (hrest₂.temporaries ▸ hne₁) fun _ _ _ => .pure _

theorem assign_blameless {name : String} (hfree : expr.arrayFree = true) (h : σ.Holds f) :
    (assign name expr).Blameless σ := by
  refine .bind (h.resolve name) fun slot σ₁ hslot => ?_
  obtain ⟨f₁, h₁, -⟩ := h.rests (resolve_advances hslot)
  exact held_blameless (fun hassigned h => value_blameless hfree hassigned h)
    (fun temp _ _ _ hrun => Expr.lower_rests hfree (value_ok hrun)) slot.isAssigned_reservation h₁

theorem store_blameless {pointer : Expr} (hpointer : pointer.arrayFree = true)
    (hfree : expr.arrayFree = true) (h : σ.Holds f) (hquiet : f.temporaries = []) :
    (store pointer expr).Blameless σ := by
  refine .bind (.lift storedTy_allows) fun pointee _ hcheck => ?_
  obtain ⟨-, rfl⟩ := lift_run hcheck
  refine .bind (.lift Check.storedValue_allows) fun _ _ hcheck' => ?_
  obtain ⟨-, rfl⟩ := lift_run hcheck'
  refine h.reserveVariable_bind hquiet fun pointerSlot σ₁ f₁ h₁ hquiet₁ hlocals₁ => ?_
  refine .bind (value_blameless hpointer pointerSlot.isAssigned_reservation h₁) fun _ σ₂ hcode => ?_
  obtain ⟨f₂, h₂, hrest₂⟩ := h₁.rests (Expr.lower_rests hpointer (value_ok hcode))
  refine h₂.reserveVariable_bind (hrest₂.temporaries.trans hquiet₁)
    fun valueSlot σ₃ f₃ h₃ hquiet₃ hlocals₃ => ?_
  refine .bind (value_blameless hfree valueSlot.isAssigned_reservation h₃) fun _ σ₄ hcode' => ?_
  obtain ⟨f₄, h₄, hrest₄⟩ := h₃.rests (Expr.lower_rests hfree (value_ok hcode'))
  obtain ⟨_, hload⟩ := Code.copy_isOk pointerSlot.isAssigned_reservation
    (pointerSlot.reservation.isAssigned_inRegister .staging)
  refine .bind (.lift (.of_ok hload)) fun _ _ hrun => ?_
  obtain ⟨-, rfl⟩ := lift_run hrun
  obtain ⟨_, hload'⟩ := Code.copy_isOk valueSlot.isAssigned_reservation
    (valueSlot.reservation.isAssigned_inRegister .operand)
  refine .bind (.lift (.of_ok hload')) fun _ _ hrun' => ?_
  obtain ⟨-, rfl⟩ := lift_run hrun'
  refine h₄.releaseVariable_bind (hrest₄.temporaries.trans hquiet₃) (hrest₄.locals.trans hlocals₃)
    fun _ σ₅ f₅ h₅ hquiet₅ hlocals₅ => ?_
  exact h₅.releaseVariable_bind hquiet₅ (hlocals₅.trans (hrest₂.locals.trans hlocals₁))
    fun _ _ _ _ _ _ => .pure _

theorem returned_blameless {ty : Ty} (hfree : expr.arrayFree = true) (h : σ.Holds f) :
    (returned ty expr).Blameless σ := by
  have hexpr := Expr.operand_blameless hfree
  have htarget := Reservation.isAssigned_ofReg ty .result
  rw [returned]
  split
  · exact held_blameless hexpr.lower hexpr.keeps htarget h
  · exact hexpr.lower htarget h

theorem ret_blameless (hfree : expr.arrayFree = true) (h : σ.Holds f) :
    (ret signature expr).Blameless σ := by
  rw [ret]
  cases expr.isEmpty <;> cases signature.returnTy.isVoid
  · exact .bind (returned_blameless hfree h) fun _ _ _ => .pure _
  · refine .throw ?_
    rintro ⟨⟩
  · refine .throw ?_
    rintro ⟨⟩
  · exact .pure _

theorem leave_blameless {exit : LoopExit} {label : Nat → Label} (h : σ.Holds f) :
    (leave exit label).Blameless σ := by
  refine .bind (h.onFrame (.ok f.currentLoop?)) fun loop? _ _ => ?_
  cases loop? with
  | some id => exact .pure _
  | none => exact .throw nofun

end Lower

/-! ## All statements -/

namespace Stmt

theorem lowerBlock_blameless_of {stmts : List Stmt}
    (hstmts : ∀ stmt ∈ stmts, ∀ {σ f}, σ.Holds f → f.temporaries = [] →
      (stmt.lower signature).Blameless σ) (h : σ.Holds f) (hquiet : f.temporaries = []) :
    (lowerBlock signature stmts).Blameless σ := by
  induction stmts generalizing σ f with
  | nil => exact .pure _
  | cons stmt stmts ih =>
    refine .bind (hstmts stmt List.mem_cons_self h hquiet) fun _ σ₁ hstmt => ?_
    obtain ⟨f₁, h₁, htemporaries⟩ := h.retains (lower_retains hstmt)
    exact .bind (ih (fun other hother => hstmts other (List.mem_cons_of_mem _ hother)) h₁
      (htemporaries.trans hquiet)) fun _ _ _ => .pure _

theorem lower_blameless (stmt : Stmt) (hfree : stmt.arrayFree = true) (h : σ.Holds f)
    (hquiet : f.temporaries = []) : (stmt.lower signature).Blameless σ := by
  induction stmt using Stmt.induct generalizing σ f with
  | declare ty name => exact h.addVariable_bind hquiet fun _ _ _ _ _ => .pure _
  | init ty name value => exact Lower.init_blameless hfree h hquiet
  | assign name value => exact Lower.assign_blameless hfree h
  | store pointer value =>
    obtain ⟨hpointer, hvalue⟩ := Bool.and_eq_true_iff.mp hfree
    exact Lower.store_blameless hpointer hvalue h hquiet
  | ret value => exact Lower.ret_blameless hfree h
  | call callee args =>
    refine Lower.call_blameless (Expr.forall_operands.mpr fun arg harg => ?_) nofun h
    exact Expr.operand_blameless (Expr.allArrayFree_eq_true.mp hfree arg harg)
  | ifElse cond thenBlock elseBlock ihThen ihElse =>
    obtain ⟨hcond, hblocks⟩ := Bool.and_eq_true_iff.mp hfree
    obtain ⟨hthen, helse⟩ := Bool.and_eq_true_iff.mp hblocks
    refine .bind (.ok _) fun id σ₁ hid => ?_
    obtain ⟨f₁, h₁, hrest₁⟩ := h.rests (Session.freshIf_advances hid)
    refine .bind (Lower.condition_blameless hcond h₁) fun _ σ₂ hcondCode => ?_
    obtain ⟨condCode, hlower, -⟩ := Lower.condition_ok hcondCode
    obtain ⟨f₂, h₂, hrest₂⟩ := h₁.rests (Expr.lower_rests hcond hlower)
    have hquiet₂ : f₂.temporaries = [] := by rw [hrest₂.temporaries, hrest₁.temporaries, hquiet]
    refine .bind (lowerBlock_blameless_of (fun stmt hmem =>
      ihThen stmt hmem (blockArrayFree_iff.mp hthen stmt hmem)) h₂ hquiet₂) fun _ σ₃ hthenCode => ?_
    obtain ⟨f₃, h₃, htemporaries⟩ := h₂.retains (lowerBlock_retains hthenCode)
    exact .bind (lowerBlock_blameless_of (fun stmt hmem =>
      ihElse stmt hmem (blockArrayFree_iff.mp helse stmt hmem)) h₃ (htemporaries.trans hquiet₂))
      fun _ _ _ => .pure _
  | loop cond body ih =>
    obtain ⟨hcond, hbody⟩ := Bool.and_eq_true_iff.mp hfree
    refine .bind (.ok _) fun id σ₁ hid => ?_
    obtain ⟨f₁, h₁, hrest₁⟩ := h.rests (Session.freshLoop_advances hid)
    refine .bind (Lower.condition_blameless hcond h₁) fun _ σ₂ hcondCode => ?_
    obtain ⟨condCode, hlower, -⟩ := Lower.condition_ok hcondCode
    obtain ⟨f₂, h₂, hrest₂⟩ := h₁.rests (Expr.lower_rests hcond hlower)
    have hquiet₂ : f₂.temporaries = [] := by rw [hrest₂.temporaries, hrest₁.temporaries, hquiet]
    exact .bind (Session.inLoop_blameless (lowerBlock_tight body) h₂ fun h₃ =>
      lowerBlock_blameless_of (fun stmt hmem =>
        ih stmt hmem (blockArrayFree_iff.mp hbody stmt hmem)) h₃ hquiet₂) fun _ _ _ => .pure _
  | breakLoop => exact Lower.leave_blameless h
  | continueLoop => exact Lower.leave_blameless h

theorem lowerBlock_blameless {stmts : List Stmt} (hfree : blockArrayFree stmts = true) (h : σ.Holds f)
    (hquiet : f.temporaries = []) : (lowerBlock signature stmts).Blameless σ :=
  lowerBlock_blameless_of (fun stmt hmem =>
    stmt.lower_blameless (blockArrayFree_iff.mp hfree stmt hmem)) h hquiet

end Stmt

end ArmBackend
