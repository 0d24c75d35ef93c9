import ArmBackend.Proofs.Stmt.Accepted

/-!
# Lowering accepted statements

When each form of statement is lowered, in terms of its parts. No temporary is live between statements,
so a variable can be added wherever its type has a size.
-/

namespace ArmBackend

open Session (onFrame Advances onFrame_ok)
open ArmBackend.Frame (Rests Grows Binds Follows)
open StepM (succeeds_bind_iff succeeds_bind_left succeeds_lift_bind)

variable {signatures : List Signature} {signature : Signature} {σ τ : Session} {f : Frame}
  {expr : Expr} {target : Reservation}

theorem Session.inLoop_succeeds {R : Frame → Frame → Prop} {α : Type} {id : Nat} {step : CompileM α}
    {P : Prop} (h : σ.Hosts signatures f)
    (hstep : ∀ {σ₁}, σ₁.Hosts signatures (f.pushLoop id) → (step.Succeeds σ₁ ↔ P))
    (hadvance : ∀ {σ a τ}, step.run σ = (.ok a, τ) → Advances R σ τ) :
    (inLoop id step).Succeeds σ ↔ P := by
  have hpush : (onFrame (modify (Frame.pushLoop id))).Succeeds σ := h.onFrame_succeeds.mpr ⟨_, _, rfl⟩
  have hhosts : ∀ {σ₁}, (onFrame (modify (Frame.pushLoop id))).run σ = (.ok (), σ₁) →
      σ₁.Hosts signatures (f.pushLoop id) := by
    intro σ₁ hrun
    obtain ⟨g, hg, hpushed⟩ := h.advances (onFrame_ok hrun).1 fun hrun hf => by
      cases hrun
      exact ⟨hf.valid.pushLoop id, hf.sized⟩
    cases hpushed
    exact hg
  constructor
  · rintro ⟨a, τ, hrun⟩
    obtain ⟨σ₁, σ₂, hσ₁, hinner, -⟩ := inLoop_ok hrun
    exact (hstep (hhosts hσ₁)).mp (.of_ok hinner)
  · intro hP
    obtain ⟨_, σ₁, hσ₁⟩ := hpush
    obtain ⟨a, σ₂, hinner⟩ := (hstep (hhosts hσ₁)).mpr hP
    obtain ⟨fs, hf⟩ := (hhosts hσ₁).frames
    obtain ⟨g, hg, -⟩ := (hadvance hinner).frames hf
    have hpop : (onFrame (modify Frame.popLoop)).Succeeds σ₂ := (onFrame_succeeds hg).mpr ⟨_, _, rfl⟩
    obtain ⟨_, σ₃, hpop⟩ := hpop
    refine ⟨a, σ₃, StepM.run_bind_eq_ok.mpr ⟨(), σ₁, hσ₁, StepM.run_bind_eq_ok.mpr
      ⟨.ok a, σ₂, ?_, StepM.run_bind_eq_ok.mpr ⟨(), σ₃, hpop, rfl⟩⟩⟩⟩
    rw [StepM.run_attempt, hinner]

namespace Lower

/-! ## Values -/

theorem value_succeeds (hexpr : expr.Lowers signatures) (hvoid : expr.ty.isVoid = false)
    (htarget : target.isAssigned = true) (h : σ.Hosts signatures f) :
    (value target expr).Succeeds σ ↔ expr.Accepted signatures f.names := by
  have hcheck : Check.value expr = .ok () := by rw [Check.value, hvoid]; rfl
  rw [value, succeeds_lift_bind, hcheck, ← hexpr.succeeds htarget h]
  constructor
  · rintro ⟨_, _, hs⟩
    exact hs
  · exact fun hs => ⟨(), rfl, hs⟩

theorem value_keeps (hexpr : expr.Lowers signatures) (target : Reservation) :
    Session.Keeps Rests (value target expr) := fun hrun => hexpr.keeps target (value_ok hrun)

theorem condition_succeeds (hexpr : expr.Lowers signatures) (hvoid : expr.ty.isVoid = false)
    (h : σ.Hosts signatures f) :
    (condition expr).Succeeds σ ↔ expr.Accepted signatures f.names := by
  rw [condition, ← value_succeeds hexpr hvoid (Reservation.isAssigned_ofReg _ _) h]
  exact succeeds_bind_left fun _ _ _ => StepM.succeeds_pure _ _

theorem addVariable_succeeds {ty : Ty} (hsize : ty.storable = true) (name : String)
    (h : σ.Hosts signatures f) (hquiet : f.temporaries = []) :
    (onFrame (Frame.addVariable ty name)).Succeeds σ :=
  h.onFrame_succeeds.mpr (Frame.addVariable_succeeds.mpr ⟨hquiet, Ty.storable_iff.mp hsize⟩)

theorem arrayTarget_isOk (hproper : expr.Proper signatures) (ty : Ty) :
    Check.arrayTarget ty expr = .ok () := by
  cases expr with
  | array elements ty => exact hproper.elim
  | _ => rfl

theorem storedValue_isOk (hproper : expr.Proper signatures) : Check.storedValue expr = .ok () := by
  cases expr with
  | array elements ty => exact hproper.elim
  | _ => rfl

theorem init_succeeds {ty : Ty} {name : String} (hproper : expr.Proper signatures)
    (hexpr : expr.Lowers signatures) (hvoid : expr.ty.isVoid = false) (hsize : ty.storable = true)
    (h : σ.Hosts signatures f) (hquiet : f.temporaries = []) :
    (init ty name expr).Succeeds σ ↔ expr.Accepted signatures (name :: f.names) := by
  rw [init, succeeds_lift_bind, arrayTarget_isOk hproper]
  simp only [exists_const, true_and]
  refine (addVariable_succeeds hsize name h hquiet).bind_iff fun slot σ₁ hslot => ?_
  obtain ⟨f₁, h₁, hbinds⟩ := h.advances ((onFrame_ok hslot).1.mono Frame.addVariable_binds) Binds.sound
  rw [value_succeeds hexpr hvoid slot.isAssigned_reservation h₁, hbinds.names]
  rfl

theorem assign_succeeds {name : String} (hexpr : expr.Lowers signatures) (hvoid : expr.ty.isVoid = false)
    (h : σ.Hosts signatures f) :
    (assign name expr).Succeeds σ ↔ name ∈ f.names ∧ expr.Accepted signatures f.names := by
  rw [assign]
  refine succeeds_bind_iff (resolve_succeeds name h) fun slot σ₁ hslot => ?_
  obtain ⟨f₁, h₁, hlookup, rfl⟩ := h.advances ((onFrame_ok hslot).1.mono Frame.resolve_ok)
    fun hresolved hf => hresolved.2 ▸ hf
  have hsize : 0 < slot.ty.size := h.sound.sized _ (Frame.mem_symbols hlookup)
  have hreserve : (onFrame (Frame.reserveTemp slot.ty)).Succeeds σ₁ :=
    h₁.onFrame_succeeds.mpr (Frame.reserveTemp_succeeds.mpr hsize)
  refine hreserve.bind_iff fun temp σ₂ htemp => ?_
  obtain ⟨f₂, h₂, hrun⟩ := h₁.reserveTemp htemp
  obtain ⟨hassigned, -⟩ := Frame.reserveTemp_assigned hrun
  rw [← (Follows.reserveTemp hrun).names, ← value_succeeds hexpr hvoid hassigned h₂]
  refine succeeds_bind_left fun code σ₃ hcode => ?_
  obtain ⟨f₃, h₃, hrest⟩ := h₂.rests (value_keeps hexpr _ hcode)
  have hne : f₃.temporaries ≠ [] := hrest.temporaries ▸ Frame.reserveTemp_ne_nil hrun
  obtain ⟨copyCode, hcopy⟩ := Code.copy_isOk hassigned slot.isAssigned_reservation
  exact succeeds_lift_bind.mpr ⟨copyCode, hcopy, (h₃.releaseTemp_succeeds hne).bind
    fun _ _ _ => StepM.succeeds_pure _ _⟩

theorem storedTy_isOk {pointee : Ty} (hsize : pointee.storable = true) :
    storedTy (.ptr pointee) = .ok pointee := if_pos hsize

theorem reserved_succeeds {ty : Ty} {rest : Slot → Code → CompileM Code} {P : Prop}
    (hexpr : expr.Lowers signatures) (hvoid : expr.ty.isVoid = false) (hsize : ty.storable = true)
    (h : σ.Hosts signatures f) (hquiet : f.temporaries = [])
    (hrest : ∀ {slot : Slot} {code : Code} {τ : Session} {g : Frame}, τ.Hosts signatures g →
      g.names = f.names → g.temporaries = [] → g.locals = slot :: f.locals →
      ((rest slot code).Succeeds τ ↔ P)) :
    (do let slot ← onFrame (Frame.reserveVariable ty)
        let code ← value slot.reservation expr
        rest slot code : CompileM Code).Succeeds σ ↔ expr.Accepted signatures f.names ∧ P := by
  have hreserve : (onFrame (Frame.reserveVariable ty)).Succeeds σ :=
    h.onFrame_succeeds.mpr (Frame.reserveVariable_succeeds.mpr ⟨hquiet, Ty.storable_iff.mp hsize⟩)
  refine hreserve.bind_iff fun slot σ₁ hslot => ?_
  obtain ⟨f₁, h₁, hrun⟩ := h.advances (onFrame_ok hslot).1 fun hrun =>
    (Frame.reserveVariable_grows hrun).binds.sound
  have hnames : f₁.names = f.names := (Frame.reserveVariable_grows hrun).binds.names
  rw [← hnames]
  refine succeeds_bind_iff (value_succeeds hexpr hvoid slot.isAssigned_reservation h₁)
    fun code σ₂ hcode => ?_
  obtain ⟨f₂, h₂, hrest₂⟩ := h₁.rests (value_keeps hexpr _ hcode)
  obtain ⟨-, -, -, rfl⟩ := Frame.reserveVariable_ok hrun
  exact hrest h₂ ((Follows.of_rests hrest₂).names.trans hnames) (hrest₂.temporaries.trans hquiet)
    hrest₂.locals

theorem store_succeeds {pointer : Expr} {pointee : Ty} (hproper : expr.Proper signatures)
    (hpointer : pointer.Lowers signatures) (hexpr : expr.Lowers signatures)
    (hty : pointer.ty = .ptr pointee) (hsize : pointee.storable = true)
    (hvoid : expr.ty.isVoid = false) (h : σ.Hosts signatures f) (hquiet : f.temporaries = []) :
    (store pointer expr).Succeeds σ ↔
      pointer.Accepted signatures f.names ∧ expr.Accepted signatures f.names := by
  have hpointerVoid : pointer.ty.isVoid = false := by rw [hty]; rfl
  have hpointerSize : pointer.ty.storable = true := by rw [hty]; rfl
  rw [store, hty, storedTy_isOk hsize, ← hty, succeeds_lift_bind]
  simp only [Except.ok.injEq, exists_eq_left']
  rw [succeeds_lift_bind, storedValue_isOk hproper]
  simp only [exists_const, true_and]
  refine reserved_succeeds hpointer hpointerVoid hpointerSize h hquiet
    fun {pointerSlot pointerCode σ₁ f₁} h₁ hnames₁ hquiet₁ hlocals₁ => ?_
  rw [← hnames₁, ← and_true (expr.Accepted signatures f₁.names)]
  refine reserved_succeeds hexpr hvoid hsize h₁ hquiet₁
    fun {valueSlot valueCode σ₂ f₂} h₂ hnames₂ hquiet₂ hlocals₂ => ?_
  obtain ⟨loadPointer, hloadPointer⟩ := Code.copy_isOk pointerSlot.isAssigned_reservation
    (pointerSlot.reservation.isAssigned_inRegister .staging)
  obtain ⟨loadValue, hloadValue⟩ := Code.copy_isOk valueSlot.isAssigned_reservation
    (valueSlot.reservation.isAssigned_inRegister .operand)
  refine iff_true_intro (succeeds_lift_bind.mpr ⟨loadPointer, hloadPointer,
    succeeds_lift_bind.mpr ⟨loadValue, hloadValue, ?_⟩⟩)
  have hrelease : (onFrame Frame.releaseVariable).Succeeds σ₂ := h₂.onFrame_succeeds.mpr
    (h₂.sound.valid.releaseVariable_succeeds hquiet₂ (by rw [hlocals₂]; exact List.cons_ne_nil _ _))
  refine hrelease.bind fun _ σ₃ hrelease => ?_
  obtain ⟨f₃, h₃, hrun₃⟩ := h₂.advances (onFrame_ok hrelease).1 fun hrun =>
    (Frame.releaseVariable_binds hrun).sound
  obtain ⟨-, slot, _, locals, _, hlocals, -, rfl⟩ := Frame.releaseVariable_ok hrun₃
  obtain ⟨-, rfl⟩ := List.cons.inj (hlocals₂.symm.trans hlocals)
  have hrelease' : (onFrame Frame.releaseVariable).Succeeds σ₃ := h₃.onFrame_succeeds.mpr
    (h₃.sound.valid.releaseVariable_succeeds hquiet₂
      (show f₁.locals ≠ [] by rw [hlocals₁]; exact List.cons_ne_nil _ _))
  exact hrelease'.bind fun _ _ _ => StepM.succeeds_pure _ _

theorem returned_succeeds {ty : Ty} (hexpr : expr.Lowers signatures) (hsize : ty.storable = true)
    (h : σ.Hosts signatures f) :
    (returned ty expr).Succeeds σ ↔ expr.Accepted signatures f.names := by
  rw [returned]
  split
  case isFalse => exact hexpr.succeeds (Reservation.isAssigned_ofReg _ _) h
  case isTrue =>
    have hreserve : (onFrame (Frame.reserveTemp ty)).Succeeds σ :=
      h.onFrame_succeeds.mpr (Frame.reserveTemp_succeeds.mpr (Ty.storable_iff.mp hsize))
    refine hreserve.bind_iff fun temp σ₁ htemp => ?_
    obtain ⟨f₁, h₁, hrun⟩ := h.reserveTemp htemp
    obtain ⟨hassigned, -⟩ := Frame.reserveTemp_assigned hrun
    rw [← (Follows.reserveTemp hrun).names, ← hexpr.succeeds hassigned h₁]
    refine succeeds_bind_left fun code σ₂ hcode => ?_
    obtain ⟨f₂, h₂, hrest⟩ := h₁.rests (hexpr.keeps _ hcode)
    have hne : f₂.temporaries ≠ [] := hrest.temporaries ▸ Frame.reserveTemp_ne_nil hrun
    obtain ⟨copyCode, hcopy⟩ := Code.copy_isOk hassigned (Reservation.isAssigned_ofReg ty .result)
    exact succeeds_lift_bind.mpr ⟨copyCode, hcopy, (h₂.releaseTemp_succeeds hne).bind
      fun _ _ _ => StepM.succeeds_pure _ _⟩

theorem ret_succeeds (hexpr : expr.isEmpty = false → expr.Lowers signatures)
    (hsized : signature.Sized) (h : σ.Hosts signatures f) :
    (ret signature expr).Succeeds σ ↔
      (expr.isEmpty = true ↔ signature.returnTy.isVoid = true) ∧
        (expr.isEmpty = false → expr.Accepted signatures f.names) := by
  rw [ret]
  cases hempty : expr.isEmpty <;> cases hvoid : signature.returnTy.isVoid
  case false.false =>
    simp only [Bool.false_eq_true, iff_self, true_and, true_imp_iff]
    rw [← returned_succeeds (hexpr hempty) (hsized.returnTy hvoid) h]
    exact succeeds_bind_left fun _ _ _ => StepM.succeeds_pure _ _
  case true.true => exact iff_of_true ⟨_, _, rfl⟩ ⟨Iff.rfl, fun h => absurd h.symm Bool.false_ne_true⟩
  case false.true =>
    exact iff_of_false (StepM.succeeds_throw _ _) fun haccepted => Bool.false_ne_true (haccepted.1.mpr rfl)
  case true.false =>
    exact iff_of_false (StepM.succeeds_throw _ _) fun haccepted => Bool.false_ne_true (haccepted.1.mp rfl)

theorem leave_succeeds {exit : LoopExit} {label : Nat → Label} (h : σ.Hosts signatures f) :
    (leave exit label).Succeeds σ ↔ f.loops ≠ [] := by
  constructor
  · rintro ⟨code, τ, hrun⟩
    obtain ⟨f', fs', id, hf', hhead, -⟩ := leave_ok hrun
    obtain ⟨fs, hf⟩ := h.frames
    cases hf.symm.trans hf'
    rintro hnil
    rw [hnil] at hhead
    cases hhead
  · intro hne
    obtain ⟨id, loops, hloops⟩ := List.exists_cons_of_ne_nil hne
    obtain ⟨fs, hf⟩ := h.frames
    refine ⟨Code.ofInstrs [.b (label id)], σ, ?_⟩
    have hcurrent : (onFrame (Frame.currentLoop? <$> get)).run σ = (.ok (some id), σ) := by
      rw [Session.onFrame_run, hf]
      simp [Frame.currentLoop?, hloops, ← hf]
    rw [leave, StepM.run_bind, hcurrent]
    rfl

end Lower

/-! ## All statements -/

namespace Stmt

theorem lowerBlock_succeeds_of {stmts : List Stmt}
    (hstmts : ∀ stmt ∈ stmts, ∀ {σ f}, σ.Hosts signatures f → f.temporaries = [] →
      ((stmt.lower signature).Succeeds σ ↔
        stmt.Accepted signatures signature.returnTy (f.loops ≠ []) f.names))
    (h : σ.Hosts signatures f) (hquiet : f.temporaries = []) :
    (lowerBlock signature stmts).Succeeds σ ↔
      BlockAccepted signatures signature.returnTy (f.loops ≠ []) f.names stmts := by
  induction stmts generalizing σ f with
  | nil => exact iff_of_true (StepM.succeeds_pure _ _) trivial
  | cons stmt stmts ih =>
    refine succeeds_bind_iff (hstmts stmt List.mem_cons_self h hquiet) fun code σ₁ hcode => ?_
    obtain ⟨f₁, h₁, hbinds⟩ := h.advances (stmt.lower_binds hcode) Binds.sound
    have hrest := ih (fun other hother => hstmts other (List.mem_cons_of_mem _ hother)) h₁
      (hbinds.temporaries.trans hquiet)
    rw [hbinds.names, hbinds.loops] at hrest
    rw [← hrest]
    exact succeeds_bind_left fun _ _ _ => StepM.succeeds_pure _ _

theorem Built.lower_succeeds (hsized : ∀ signature ∈ signatures, signature.Sized)
    (hsignature : signature.Sized) {stmt : Stmt} (hbuilt : stmt.Built)
    (hproper : stmt.Proper signatures) (h : σ.Hosts signatures f) (hquiet : f.temporaries = []) :
    (stmt.lower signature).Succeeds σ ↔
      stmt.Accepted signatures signature.returnTy (f.loops ≠ []) f.names := by
  have hexpr : ∀ {expr : Expr}, expr.Built → expr.Proper signatures → expr.Lowers signatures :=
    fun hbuilt hproper => hproper.lowers hsized hbuilt.checked hbuilt.wellTyped
  induction hbuilt generalizing σ f with
  | declare hstmt =>
    rw [Build.declare_ok hstmt] at hproper ⊢
    refine iff_of_true ?_ trivial
    exact (Lower.addVariable_succeeds hproper _ h hquiet).bind fun _ _ _ => StepM.succeeds_pure _ _
  | init hvalue hstmt =>
    obtain ⟨hvoid, rfl⟩ := Build.init_ok hstmt
    exact Lower.init_succeeds hproper.2 (hexpr hvalue hproper.2) hvoid hproper.1 h hquiet
  | assign hvalue hstmt =>
    obtain ⟨hvoid, rfl⟩ := Build.assign_ok hstmt
    exact Lower.assign_succeeds (hexpr hvalue hproper) hvoid h
  | store hpointer hvalue hstmt =>
    obtain ⟨⟨pointee, hty, hsize⟩, hvoid, rfl⟩ := Build.store_ok hstmt
    exact Lower.store_succeeds hproper.2 (hexpr hpointer hproper.1) (hexpr hvalue hproper.2) hty hsize
      hvoid h hquiet
  | ret hvalue => exact Lower.ret_succeeds (fun hempty => hexpr hvalue (hproper hempty)) hsignature h
  | call callee hargs =>
    rw [Build.callStmt, Stmt.lower, Lower.call_succeeds
      (fun arg harg => hexpr (hargs arg harg) (hproper arg harg)) (by rintro _ ⟨⟩) h, Accepted]
    simp only [Option.isSome_none, Bool.false_eq_true, false_imp_iff, true_and]
  | ifElse hcond hthen helse hstmt ihthen ihelse =>
    obtain ⟨hvoid, rfl⟩ := Build.ifElse_ok hstmt
    obtain ⟨hcondProper, hthenProper, helseProper⟩ := hproper
    have hcond := hexpr hcond hcondProper
    have hfresh : Session.freshIf.Succeeds σ := ⟨_, _, rfl⟩
    refine hfresh.bind_iff fun id σ₁ hid => ?_
    obtain ⟨f₁, h₁, hrest₁⟩ := h.rests (Session.freshIf_advances hid)
    rw [← (Follows.of_rests hrest₁).names, ← hrest₁.loops]
    refine succeeds_bind_iff (Lower.condition_succeeds hcond hvoid h₁) fun condCode σ₂ hcode => ?_
    obtain ⟨f₂, h₂, hrest₂⟩ := h₁.rests (Lower.condition_advances hcond.keeps hcode)
    rw [← (Follows.of_rests hrest₂).names, ← hrest₂.loops]
    have hquiet₂ : f₂.temporaries = [] :=
      (hrest₂.temporaries.trans hrest₁.temporaries).trans hquiet
    refine succeeds_bind_iff (lowerBlock_succeeds_of (fun stmt hmem _ _ h hquiet => ihthen stmt hmem
      (allProper_iff.mp hthenProper stmt hmem) h hquiet) h₂ hquiet₂) fun thenCode σ₃ hthenCode => ?_
    obtain ⟨f₃, h₃, hbinds⟩ := h₂.advances (lowerBlock_binds hthenCode) Binds.sound
    rw [← hbinds.names, ← hbinds.loops]
    rw [← lowerBlock_succeeds_of (fun stmt hmem _ _ h hquiet => ihelse stmt hmem
      (allProper_iff.mp helseProper stmt hmem) h hquiet) h₃ (hbinds.temporaries.trans hquiet₂)]
    exact succeeds_bind_left fun _ _ _ => StepM.succeeds_pure _ _
  | loop hcond hbody hstmt ih =>
    obtain ⟨hvoid, rfl⟩ := Build.loop_ok hstmt
    obtain ⟨hcondProper, hbodyProper⟩ := hproper
    have hcond := hexpr hcond hcondProper
    have hfresh : Session.freshLoop.Succeeds σ := ⟨_, _, rfl⟩
    refine hfresh.bind_iff fun id σ₁ hid => ?_
    obtain ⟨f₁, h₁, hrest₁⟩ := h.rests (Session.freshLoop_advances hid)
    rw [Accepted, ← (Follows.of_rests hrest₁).names]
    refine succeeds_bind_iff (Lower.condition_succeeds hcond hvoid h₁) fun condCode σ₂ hcode => ?_
    obtain ⟨f₂, h₂, hrest₂⟩ := h₁.rests (Lower.condition_advances hcond.keeps hcode)
    rw [← (Follows.of_rests hrest₂).names]
    have hquiet₂ : f₂.temporaries = [] :=
      (hrest₂.temporaries.trans hrest₁.temporaries).trans hquiet
    refine (succeeds_bind_left fun _ _ _ => StepM.succeeds_pure _ _).trans
      (Session.inLoop_succeeds h₂ (fun h₃ => ?_) lowerBlock_binds)
    rw [lowerBlock_succeeds_of (fun stmt hmem _ _ h hquiet => ih stmt hmem
      (allProper_iff.mp hbodyProper stmt hmem) h hquiet) h₃ hquiet₂]
    rw [eq_true (show (f₂.pushLoop id).loops ≠ [] from List.cons_ne_nil _ _)]
    rfl
  | breakLoop => exact Lower.leave_succeeds h
  | continueLoop => exact Lower.leave_succeeds h

theorem lowerBlock_succeeds (hsized : ∀ signature ∈ signatures, signature.Sized)
    (hsignature : signature.Sized) {stmts : List Stmt} (hbuilt : ∀ stmt ∈ stmts, stmt.Built)
    (hproper : AllProper signatures stmts) (h : σ.Hosts signatures f) (hquiet : f.temporaries = []) :
    (lowerBlock signature stmts).Succeeds σ ↔
      BlockAccepted signatures signature.returnTy (f.loops ≠ []) f.names stmts :=
  lowerBlock_succeeds_of (fun stmt hmem _ _ h hquiet => (hbuilt stmt hmem).lower_succeeds hsized
    hsignature (allProper_iff.mp hproper stmt hmem) h hquiet) h hquiet

end Stmt

end ArmBackend
