import ArmBackend.Proofs.Expr.Framed
import ArmBackend.Proofs.Stmt.Inversion
import ArmBackend.Proofs.Stmt.Shape

/-!
# Statements stay in the frame

The code of a statement reaches no further below the frame pointer than the frame has been. A name that it
binds stands for a slot that it has taken.
-/

namespace ArmBackend

open Code (Framed)
open Session (onFrame Yields Deep)

namespace Stmt

mutual

def arrays : Stmt → List (Ty × Nat)
  | .init _ _ value | .assign _ value | .ret value => value.arrays
  | .store pointer value => pointer.arrays ++ value.arrays
  | .call _ args => Expr.allArrays args
  | .ifElse cond thenBlock elseBlock => cond.arrays ++ blockArrays thenBlock ++ blockArrays elseBlock
  | .loop cond body => cond.arrays ++ blockArrays body
  | .declare .. | .breakLoop | .continueLoop => []

def blockArrays : List Stmt → List (Ty × Nat)
  | [] => []
  | stmt :: stmts => stmt.arrays ++ blockArrays stmts

end

end Stmt

variable {arrays : List (Ty × Nat)} {reach : Reach} {signature : Signature}

theorem Session.Deep.loops {change : Frame → Frame} {σ τ : Session} (hdeep : σ.Deep reach)
    (hrun : (onFrame (modify change)).run σ = (.ok (), τ)) (hsymbols : ∀ f, (change f).symbols = f.symbols)
    (hpeak : ∀ f, (change f).highWater = f.highWater) : τ.Deep reach := by
  obtain ⟨f, fs, hframes, hbounded, rfl⟩ := hdeep
  obtain ⟨-, f', fs', g, hframes', hchange, rfl⟩ := Session.onFrame_ok hrun
  cases hframes.symm.trans hframes'
  cases hchange
  exact ⟨change f, fs, rfl, hbounded.of_symbols (hsymbols f) (Nat.le_of_eq (hpeak f).symm),
    congrArg₂ Reach.mk (hpeak f) (congrArg (List.map Prod.snd) (hsymbols f))⟩

namespace Session.Yields

theorem addVariable (ty : Ty) (name : String) :
    Yields reach (Session.onFrame (Frame.addVariable ty name)) fun reach' slot => slot.Inside reach' :=
  onFrame fun {f _ _} hbounded hrun => by
    obtain ⟨-, hsize, rfl, rfl⟩ := Frame.addVariable_ok hrun
    have hinside := Frame.inside_withSlot f hsize
    let slot : Slot := ⟨f.position + f.slotSize ty, ty⟩
    have hle : f.reach ≤ { f.withSlot ty with symbols := (name, slot) :: f.symbols }.reach :=
      ⟨Nat.le_max_left _ _, List.subset_cons_self _ _⟩
    exact ⟨List.forall_mem_cons.mpr ⟨hinside, fun entry hentry => (hbounded entry hentry).mono hle⟩,
      hle, hinside⟩

theorem releaseVariable : Yields reach (Session.onFrame Frame.releaseVariable) fun _ _ => True :=
  onFrame fun hbounded hrun => by
    obtain ⟨-, _, _, _, _, -, -, rfl⟩ := Frame.releaseVariable_ok hrun
    exact ⟨hbounded, le_refl _, trivial⟩

theorem inLoop {α : Type} {id : Nat} {step : CompileM α} {P : Reach → α → Prop} (h : Yields reach step P) :
    Yields reach (Session.inLoop id step) P := by
  intro σ a τ hdeep hrun
  obtain ⟨σ₁, σ₂, hpush, hstep, hpop⟩ := inLoop_ok hrun
  have hdeep₁ := hdeep.loops hpush (fun _ => rfl) fun _ => rfl
  obtain ⟨reach', hle, hdeep₂, hP⟩ := h σ₁ a σ₂ hdeep₁ hstep
  exact ⟨reach', hle, hdeep₂.loops hpop (fun _ => rfl) fun _ => rfl, hP⟩

end Session.Yields

theorem Code.Framed.branch (label : Label) : Framed arrays reach [.instr (.b label)] :=
  .one (.of_volatile trivial (List.forall_mem_nil _))

theorem Code.Framed.branchIf (cond : Cond) (label : Label) : Framed arrays reach [.instr (.bCond cond label)] :=
  .one (.of_volatile trivial (List.forall_mem_nil _))

namespace Lower

variable {target : Reservation} {expr : Expr}

theorem value_framed (harrays : expr.arrays ⊆ arrays) (htarget : target.Housed reach) : Yields reach (value target expr) (Framed arrays) :=
  .check fun _ _ => expr.lower_framed harrays htarget

theorem condition_framed (harrays : expr.arrays ⊆ arrays) : Yields reach (condition expr) (Framed arrays) := by
  have hstaging : Register.staging.Volatile := trivial
  have hcmp : (Instr.cmpImm .staging 0).Plain :=
    .of_volatile (Nat.zero_le _) (List.forall_mem_singleton.mpr hstaging)
  exact .bind (value_framed harrays (.register expr.ty hstaging)) fun _ _ _ hcode => .pure (.append hcode (.one hcmp))

theorem init_framed {ty : Ty} {name : String} (harrays : expr.arrays ⊆ arrays) :
    Yields reach (init ty name expr) (Framed arrays) :=
  .check fun _ _ => .bind (.addVariable ty name) fun _ _ _ hslot => value_framed harrays (.slot hslot)

theorem assign_framed {name : String} (harrays : expr.arrays ⊆ arrays) :
    Yields reach (assign name expr) (Framed arrays) :=
  .bind (.resolve name) fun _ slot h₁ hslot => .bind (.reserveTemp slot.ty) fun _ _ h₂ htemp =>
  .bind (value_framed harrays htemp) fun _ _ h₃ hcode => .check fun _ hcopy =>
  .skip .releaseTemp fun _ _ h₄ =>
    have hcopyCode := Code.framed_copy hcopy (htemp.mono h₃) (.slot (hslot.2.mono (by order)))
    .pure (.append (hcode.mono h₄) (hcopyCode.mono h₄))

theorem store_framed {pointer : Expr} (hpointers : pointer.arrays ⊆ arrays) (hvalues : expr.arrays ⊆ arrays) :
    Yields reach (store pointer expr) (Framed arrays) := by
  have hstaging : Register.staging.Volatile := trivial
  have hoperand : Register.operand.Volatile := trivial
  refine .check fun pointee _ => .check fun _ _ =>
    .bind (.reserveVariable pointer.ty) fun _ _ h₁ hpointer =>
    .bind (value_framed hpointers (.slot hpointer)) fun _ _ h₂ hpointerCode =>
    .bind (.reserveVariable pointee) fun _ _ h₃ hvalue =>
    .bind (value_framed hvalues (.slot hvalue)) fun _ _ h₄ hvalueCode =>
    .check fun _ hload => .check fun _ hload' =>
    .skip .releaseVariable fun _ _ h₅ => .skip .releaseVariable fun _ _ h₆ => .pure ?_
  have hstore : (Instr.store pointee.width .operand (.base .staging)).Plain :=
    .of_volatile trivial (Register.volatile_pair hoperand hstaging)
  refine .append (.append (.append (.append (hpointerCode.mono (by order)) (hvalueCode.mono (by order))) ?_)
    ?_) (.one hstore)
  · exact Code.framed_copy hload (.slot (hpointer.mono (by order))) (.register _ hstaging)
  · exact Code.framed_copy hload' (.slot (hvalue.mono (by order))) (.register _ hoperand)

theorem returned_framed {ty : Ty} (harrays : expr.arrays ⊆ arrays) : Yields reach (returned ty expr) (Framed arrays) := by
  have hresult : Register.result.Volatile := trivial
  rw [returned]
  split
  · exact .bind (.reserveTemp ty) fun _ temp h₁ htemp => .bind (expr.lower_framed harrays htemp) fun _ _ h₂ hcode =>
      .check fun _ hcopy => .skip .releaseTemp fun _ _ h₃ =>
        have hcopyCode := Code.framed_copy hcopy (htemp.mono h₂) (.register _ hresult)
        .pure (.append (hcode.mono h₃) (hcopyCode.mono h₃))
  · exact expr.lower_framed harrays (.register _ hresult)

theorem ret_framed (harrays : expr.arrays ⊆ arrays) : Yields reach (ret signature expr) (Framed arrays) := by
  have hbranch : ∀ {reach}, Framed arrays reach (Code.ofInstrs [.b (.returnOf signature.name)]) := .branch _
  rw [ret]
  cases expr.isEmpty <;> cases signature.returnTy.isVoid
  · exact .bind (returned_framed harrays) fun _ _ _ hcode => .pure (.append hcode hbranch)
  · exact .throw
  · exact .throw
  · exact .pure (.append .nil hbranch)

theorem leave_framed {exit : LoopExit} {label : Nat → Label} : Yields reach (leave exit label) (Framed arrays) := by
  intro σ code τ hdeep hrun
  obtain ⟨_, _, id, -, -, rfl, rfl⟩ := leave_ok hrun
  exact ⟨reach, le_refl _, hdeep, .branch _⟩

end Lower

/-! ## All statements -/

theorem Session.freshIf_framed : Yields reach freshIf fun _ _ => True := by
  rintro σ id τ ⟨f, fs, hframes, hbounded, hpeak⟩ hrun
  obtain ⟨-, _, rfl⟩ := freshIf_ok hrun
  exact ⟨reach, le_refl _, ⟨f, fs, hframes, hbounded, hpeak⟩, trivial⟩

theorem Session.freshLoop_framed : Yields reach freshLoop fun _ _ => True := by
  rintro σ id τ ⟨f, fs, hframes, hbounded, hpeak⟩ hrun
  obtain ⟨-, _, rfl⟩ := freshLoop_ok hrun
  exact ⟨reach, le_refl _, ⟨f, fs, hframes, hbounded, hpeak⟩, trivial⟩

namespace Stmt

theorem lowerBlock_framed_of {stmts : List Stmt}
    (h : ∀ stmt ∈ stmts, ∀ {reach}, stmt.arrays ⊆ arrays → Yields reach (stmt.lower signature) (Framed arrays))
    (harrays : blockArrays stmts ⊆ arrays) : Yields reach (lowerBlock signature stmts) (Framed arrays) := by
  induction stmts generalizing reach with
  | nil => exact .pure .nil
  | cons stmt stmts ih =>
    obtain ⟨hfirst, hothers⟩ := List.append_subset.mp harrays
    have hrest : ∀ {reach}, Yields reach (lowerBlock signature stmts) (Framed arrays) :=
      ih (fun other hother => h other (List.mem_cons_of_mem _ hother)) hothers
    exact .bind (h stmt List.mem_cons_self hfirst) fun _ _ _ hcode => .bind hrest fun _ _ hle hrestCode =>
      .pure (.append (hcode.mono hle) hrestCode)

/-- The code of a statement stays in the frame. -/
theorem lower_framed (stmt : Stmt) (harrays : stmt.arrays ⊆ arrays) :
    Yields reach (stmt.lower signature) (Framed arrays) := by
  induction stmt using Stmt.induct generalizing reach with
  | declare ty name => exact .bind (.addVariable ty name) fun _ _ _ _ => .pure .nil
  | init ty name value => exact Lower.init_framed harrays
  | assign name value => exact Lower.assign_framed harrays
  | store pointer value =>
    obtain ⟨hpointer, hvalue⟩ := List.append_subset.mp harrays
    exact Lower.store_framed hpointer hvalue
  | ret value => exact Lower.ret_framed harrays
  | call callee args =>
    exact Lower.call_framed (Expr.forall_operands.mpr fun arg harg =>
      arg.operand_framed (List.Subset.trans (Expr.arrays_subset_allArrays harg) harrays)) nofun
  | ifElse cond thenBlock elseBlock ihThen ihElse =>
    obtain ⟨hboth, helseArrays⟩ := List.append_subset.mp harrays
    obtain ⟨hcondArrays, hthenArrays⟩ := List.append_subset.mp hboth
    refine .skip Session.freshIf_framed fun _ id _ => .bind (Lower.condition_framed hcondArrays) fun _ _ h₁ hcond =>
      .bind (lowerBlock_framed_of ihThen hthenArrays) fun _ _ h₂ hthen =>
      .bind (lowerBlock_framed_of ihElse helseArrays) fun _ _ h₃ helse => .pure ?_
    exact .append (.append (.append (hcond.mono (by order)) (.append (.branchIf .eq _)
      (.append (.label _) (hthen.mono h₃)))) (.append (.branch _) (.append (.label _) helse))) (.label _)
  | loop cond body ih =>
    obtain ⟨hcondArrays, hbodyArrays⟩ := List.append_subset.mp harrays
    refine .skip Session.freshLoop_framed fun _ id _ => .bind (Lower.condition_framed hcondArrays) fun _ _ h₁ hcond =>
      .bind (.inLoop (lowerBlock_framed_of ih hbodyArrays)) fun _ _ h₂ hbody => .pure ?_
    exact .append (.append (.append (.label _) (hcond.mono h₂)) (.append (.branchIf .eq _)
      (.append (.label _) hbody))) (.append (.branch _) (.label _))
  | breakLoop => exact Lower.leave_framed
  | continueLoop => exact Lower.leave_framed

theorem lowerBlock_framed (stmts : List Stmt) (harrays : blockArrays stmts ⊆ arrays) :
    Yields reach (lowerBlock signature stmts) (Framed arrays) :=
  lowerBlock_framed_of (fun stmt _ _ => stmt.lower_framed) harrays

end Stmt

end ArmBackend
