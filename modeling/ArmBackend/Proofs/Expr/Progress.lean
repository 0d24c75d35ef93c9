import ArmBackend.Proofs.Expr.Inversion
import ArmBackend.Proofs.Expr.Shape

/-!
# Progress of lowering expressions

Lowering an expression gives back every temporary that it reserves. It leaves variables behind for
arrays only.
-/

namespace ArmBackend

open Session (onFrame Advances Keeps onFrame_ok)
open ArmBackend.Frame (Growth Rests Grows Over)

variable {R : Frame → Frame → Prop} {σ σ₁ σ₂ τ : Session}

theorem Session.Advances.bracket (law : Growth R) {ty : Ty} {res : Reservation}
    (hreserve : (onFrame (Frame.reserveTemp ty)).run σ = (.ok res, σ₁)) (hinner : Advances R σ₁ σ₂)
    (hrelease : (onFrame Frame.releaseTemp).run σ₂ = (.ok (), τ)) : Advances Rests σ τ := by
  have hlast := hinner.comp (onFrame_ok hrelease).1 (T := fun f g => f.temporaries ≠ [] →
    ∃ k, Rests f k ∧ Frame.releaseTemp.run k = (.ok (), g)) fun hR hrun hne =>
      ⟨_, law.rests hR hne, hrun⟩
  refine (onFrame_ok hreserve).1.comp hlast fun hrun hrest => ?_
  obtain ⟨k, hk, hrun'⟩ := hrest (Frame.reserveTemp_ne_nil hrun)
  exact Frame.reserveTemp_releaseTemp hrun hk hrun'

def Operand.Keeps (R : Frame → Frame → Prop) (operand : Operand) : Prop :=
  ∀ target, Session.Keeps R (operand.lower target)

namespace Lower

/-! ## Operators and addresses -/

theorem binary_advances (law : Growth R) {op : BinOp} {ty : Ty} {target : Reservation}
    {lhs rhs : Operand} {code : Code} (hlhs : lhs.Keeps R) (hrhs : rhs.Keeps R)
    (h : (binary op ty target lhs rhs).run σ = (.ok code, τ)) : Advances Rests σ τ := by
  obtain ⟨left, leftCode, right, rightCode, -, σ₁, σ₂, σ₃, σ₄, σ₅, hleft, hleftCode, hright,
    hrightCode, -, hrelease, hrelease', -, -⟩ := binary_ok h
  have hinner : Advances Rests σ₂ σ₅ :=
    Advances.bracket law hright (hrhs right hrightCode) hrelease
  have houter : Advances R σ₁ σ₅ :=
    (hlhs left hleftCode).comp hinner fun hR hrest => law.trans hR (law.of_rests hrest)
  exact Advances.bracket law hleft houter hrelease'

theorem unary_advances (law : Growth R) {op : UnOp} {target : Reservation} {operand : Operand}
    {code : Code} (hoperand : operand.Keeps R)
    (h : (unary op target operand).run σ = (.ok code, τ)) : Advances R σ τ := by
  obtain ⟨-, ⟨reg, -, operandCode, -, hcode, -, -⟩ |
    ⟨-, res, operandCode, -, σ₁, σ₂, hres, hcode, -, hrelease, -⟩⟩ := unary_ok h
  · exact hoperand _ hcode
  · exact (Advances.bracket law hres (hoperand res hcode) hrelease).mono law.of_rests

theorem resolve_advances {name : String} {slot : Slot}
    (h : (onFrame (Frame.resolve name)).run σ = (.ok slot, τ)) : Advances Rests σ τ :=
  (onFrame_ok h).1.mono fun hrun => (Frame.resolve_ok hrun).2 ▸ .refl _

/-! ## Arrays -/

/-- Whether `R` covers the variables that an array leaves behind. -/
def CoversArrays (R : Frame → Frame → Prop) : Prop :=
  ∀ {f g : Frame} {ty : Ty} {slot : Slot},
    (Frame.reserveVariable ty).run f = (.ok slot, g) → R f g

theorem reserveElements_advances (law : Growth R) (harrays : CoversArrays R) {ty : Ty} {count : Nat}
    {slots slots' : List Slot}
    (h : (reserveElements ty count slots).run σ = (.ok slots', τ)) : Advances R σ τ := by
  induction count generalizing slots σ with
  | zero =>
    cases h
    exact (Advances.refl _).mono law.of_rests
  | succ count ih =>
    obtain ⟨slot, σ₁, hslot, h₁⟩ := StepM.run_bind_eq_ok.mp h
    exact ((onFrame_ok hslot).1.mono harrays).comp (ih h₁) law.trans

theorem elements_advances (law : Growth R) {slots : List Slot} {operands : List Operand}
    {code : Code} (hoperands : ∀ operand ∈ operands, operand.Keeps R)
    (h : (elements slots operands).run σ = (.ok code, τ)) : Advances R σ τ := by
  induction slots generalizing operands σ code with
  | nil =>
    simp only [elements] at h
    cases h
    exact (Advances.refl _).mono law.of_rests
  | cons slot slots ih =>
    cases operands with
    | nil =>
      cases h
      exact (Advances.refl _).mono law.of_rests
    | cons operand operands =>
      obtain ⟨elementCode, σ₁, helement, h₁⟩ := StepM.run_bind_eq_ok.mp h
      obtain ⟨restCode, σ₂, hrest, h₂⟩ := StepM.run_bind_eq_ok.mp h₁
      cases h₂
      exact (hoperands operand List.mem_cons_self _ helement).comp
        (ih (fun other hother => hoperands other (List.mem_cons_of_mem _ hother)) hrest) law.trans

/-! ## Calls -/

theorem shield_advances (law : Growth R) {args : List Operand} {regs : List Register}
    {out : Code × List (Reservation × Register)} (hargs : ∀ arg ∈ args, arg.Keeps R)
    (h : (shield args regs).run σ = (.ok out, τ)) :
    Advances (fun f g => Over out.2.length f g ∧ f.highWater ≤ g.highWater) σ τ := by
  induction args generalizing regs out σ with
  | nil =>
    simp only [shield] at h
    cases h
    exact (Advances.refl _).mono fun hrest => ⟨hrest, hrest.highWater⟩
  | cons arg args ih =>
    have hrest : ∀ arg ∈ args, arg.Keeps R := fun other hother =>
      hargs other (List.mem_cons_of_mem _ hother)
    cases regs with
    | nil =>
      cases h
      exact (Advances.refl _).mono fun hrest => ⟨hrest, hrest.highWater⟩
    | cons reg regs =>
      cases hcalls : arg.calls with
      | true =>
        obtain ⟨res, argCode, restCode, shielded, σ₁, σ₂, hres, hcode, htail, rfl⟩ :=
          shield_calls_ok hcalls h
        have hone := (onFrame_ok hres).1.comp (hargs arg List.mem_cons_self res hcode)
          (T := fun f g => ∃ k, (Frame.reserveTemp arg.ty).run f = (.ok res, k) ∧ Rests k g)
          fun hrun hR => ⟨_, hrun, law.rests hR (Frame.reserveTemp_ne_nil hrun)⟩
        refine hone.comp (ih hrest htail) ?_
        rintro _ _ _ ⟨k, hrun, hk⟩ ⟨hover, hhigh⟩
        have hreserve := (Frame.reserveTemp_highWater hrun).1
        exact ⟨Over.succ hrun (hover.of_rests hk),
          Nat.le_trans hreserve (Nat.le_trans hk.highWater hhigh)⟩
      | false =>
        rw [shield_quiet args reg regs hcalls] at h
        exact ih hrest h

theorem direct_advances (law : Growth R) {args : List Operand} {regs : List Register} {code : Code}
    (hargs : ∀ arg ∈ args, arg.Keeps R) (h : (direct args regs).run σ = (.ok code, τ)) :
    Advances R σ τ := by
  induction args generalizing regs code σ with
  | nil =>
    simp only [direct] at h
    cases h
    exact (Advances.refl _).mono law.of_rests
  | cons arg args ih =>
    have hrest : ∀ arg ∈ args, arg.Keeps R := fun other hother =>
      hargs other (List.mem_cons_of_mem _ hother)
    cases regs with
    | nil =>
      cases h
      exact (Advances.refl _).mono law.of_rests
    | cons reg regs =>
      cases hcalls : arg.calls with
      | true =>
        rw [direct_calls args reg regs hcalls] at h
        exact ih hrest h
      | false =>
        obtain ⟨argCode, restCode, σ₁, hcode, htail, -⟩ := direct_quiet_ok hcalls h
        exact (hargs arg List.mem_cons_self _ hcode).comp (ih hrest htail) law.trans

theorem releaseTemps_advances {count : Nat}
    (h : (releaseTemps count).run σ = (.ok (), τ)) :
    Advances (fun f g => (∀ k, Over count k f → Rests k g) ∧ f.highWater ≤ g.highWater) σ τ := by
  induction count generalizing σ with
  | zero =>
    cases h
    exact (Advances.refl _).mono fun hrest => ⟨fun _ hover => hover.trans hrest, hrest.highWater⟩
  | succ count ih =>
    obtain ⟨_, σ₁, hrelease, h₁⟩ := StepM.run_bind_eq_ok.mp h
    exact (onFrame_ok hrelease).1.comp (ih h₁) fun hrun hnext =>
      ⟨fun k hover => hnext.1 k (hover.2 (.refl _) hrun),
        Nat.le_trans (Frame.releaseTemp_highWater hrun) hnext.2⟩

theorem arguments_advances (law : Growth R) {args : List Operand} {regs : List Register}
    {code : Code} (hargs : ∀ arg ∈ args, arg.Keeps R)
    (h : (arguments args regs).run σ = (.ok code, τ)) : Advances R σ τ := by
  obtain ⟨shieldCode, shielded, directCode, copyCode, σ₁, σ₂, hshield, hdirect, -, hrelease, -⟩ :=
    arguments_ok h
  have hover := (shield_advances law hargs hshield).mono (S := Over shielded.length) And.left
  have hR := direct_advances law hargs hdirect
  cases hlength : shielded.length with
  | zero =>
    rw [hlength] at hrelease hover
    cases hrelease
    exact hover.comp hR fun hrest hR => law.trans (law.of_rests hrest) hR
  | succ n =>
    rw [hlength] at hrelease hover
    have hinner := hover.comp hR (T := Over (n + 1)) fun hover hR =>
      hover.rests (law.rests hR hover.1)
    exact hinner.comp (releaseTemps_advances hrelease) fun hover hnext =>
      law.of_rests (hnext.1 _ hover)

theorem functionCall_advances (law : Growth R) {callee : String} {args : List Operand}
    {target : Option Reservation} {code : Code} (hargs : ∀ arg ∈ args, arg.Keeps R)
    (h : (functionCall callee args target).run σ = (.ok code, τ)) : Advances R σ τ := by
  obtain ⟨signature, regs, argCode, resultCode, f, fs, σ₁, -, -, -, hcode, -, -, rfl, -⟩ :=
    functionCall_ok h
  have hmark := (Session.markUsed_advances callee σ).mono law.of_rests
  have hrecord := (Session.recordCall_advances σ₁).comp
    (Session.recordSaves_advances f.liveTempRegs.length (Session.recordCall σ₁)) Rests.trans
  exact (hmark.comp (arguments_advances law hargs hcode) law.trans).comp
    (hrecord.mono law.of_rests) law.trans

theorem trap_advances (law : Growth R) {operands : List Operand} {target : Option Reservation}
    {code : Code} (hoperands : ∀ operand ∈ operands, operand.Keeps R)
    (h : (trap operands target).run σ = (.ok code, τ)) : Advances R σ τ := by
  obtain ⟨number, args, regs, operandCode, resultCode, σ₁, rfl, -, hcode, -, rfl, -⟩ := trap_ok h
  have hnumber := hoperands number List.mem_cons_self
  have hargs : ∀ arg ∈ args, arg.Keeps R := fun arg harg =>
    hoperands arg (List.mem_cons_of_mem _ harg)
  have hrecord := (Session.recordCall_advances σ₁).mono law.of_rests
  rcases trapOperands_ok hcode with
    ⟨res, numberCode, argCode, -, σ₂, σ₃, σ₄, -, hres, hlower, hargCode, -, hrelease, -⟩ |
    ⟨argCode, numberCode, σ₂, -, hargCode, hlower, -⟩
  · have hinner := (hnumber res hlower).comp (arguments_advances law hargs hargCode) law.trans
    exact ((Advances.bracket law hres hinner hrelease).mono law.of_rests).comp hrecord law.trans
  · exact ((arguments_advances law hargs hargCode).comp (hnumber _ hlower) law.trans).comp hrecord
      law.trans

theorem call_advances (law : Growth R) {callee : String} {args : List Operand}
    {target : Option Reservation} {code : Code} (hargs : ∀ arg ∈ args, arg.Keeps R)
    (h : (call callee args target).run σ = (.ok code, τ)) : Advances R σ τ := by
  rw [call] at h
  split at h
  · exact trap_advances law hargs h
  · exact functionCall_advances law hargs h

end Lower

/-! ## All expressions -/

namespace Expr

theorem operand_keeps (law : Growth R) (expr : Expr)
    (harrays : Lower.CoversArrays R ∨ expr.arrayFree = true) : expr.operand.Keeps R := by
  induction expr using Expr.induct with
  | literal value ty =>
    intro target σ code τ h
    obtain ⟨-, rfl⟩ := Lower.lift_run h
    exact (Advances.refl _).mono law.of_rests
  | var name ty =>
    intro target σ code τ h
    obtain ⟨slot, σ₁, hslot, h₁⟩ := StepM.run_bind_eq_ok.mp h
    obtain ⟨-, rfl⟩ := Lower.lift_run h₁
    exact (Lower.resolve_advances hslot).mono law.of_rests
  | deref pointer ty ih => exact fun target σ code τ h => Lower.unary_advances law (ih harrays) h
  | call callee args ty ih =>
    intro target σ code τ h
    refine Lower.call_advances law (forall_operands.mpr fun arg harg => ?_) h
    exact ih arg harg (harrays.imp_right fun hfree => allArrayFree_eq_true.mp hfree arg harg)
  | binary op lhs rhs ty ihl ihr =>
    intro target σ code τ h
    have hl : Lower.CoversArrays R ∨ lhs.arrayFree = true :=
      harrays.imp_right fun hfree => (Bool.and_eq_true_iff.mp hfree).1
    have hr : Lower.CoversArrays R ∨ rhs.arrayFree = true :=
      harrays.imp_right fun hfree => (Bool.and_eq_true_iff.mp hfree).2
    exact (Lower.binary_advances law (ihl hl) (ihr hr) h).mono law.of_rests
  | unary op operand ty ih =>
    intro target σ code τ h
    simp only [Expr.operand, Expr.lower] at h
    split at h
    · obtain ⟨name, _, slot, -, hslot, -⟩ := Lower.addressOf_ok h
      exact (Lower.resolve_advances hslot).mono law.of_rests
    · exact Lower.unary_advances law (ih harrays) h
  | array elements ty ih =>
    intro target σ code τ h
    have hcovers : Lower.CoversArrays R := harrays.resolve_right (by rintro ⟨⟩)
    obtain ⟨elementTy, first, slots, elementsCode, -, σ₁, -, hslots, hcode, -, -⟩ :=
      Lower.array_ok h
    have hkeeps : ∀ operand ∈ operands elements, operand.Keeps R :=
      forall_operands.mpr fun element helement => ih element helement (Or.inl hcovers)
    exact (Lower.reserveElements_advances law hcovers hslots).comp
      (Lower.elements_advances law hkeeps hcode) law.trans
  | str text ty =>
    intro target σ code τ h
    obtain ⟨label, hlabel, -⟩ := Lower.string_ok h
    exact (Session.intern_ok hlabel).1.mono law.of_rests
  | empty ty =>
    intro target σ code τ h
    cases h
    exact (Advances.refl _).mono law.of_rests

theorem operand_rests {expr : Expr} (hfree : expr.arrayFree = true) : expr.operand.Keeps Rests :=
  expr.operand_keeps Frame.growth_rests (Or.inr hfree)

theorem operand_grows (expr : Expr) : expr.operand.Keeps Grows :=
  expr.operand_keeps Frame.growth_grows (Or.inl Frame.reserveVariable_grows)

theorem lower_rests {expr : Expr} (hfree : expr.arrayFree = true) {target : Reservation}
    {code : Code} (h : (expr.lower target).run σ = (.ok code, τ)) : Advances Rests σ τ :=
  operand_rests hfree target h

theorem lower_grows {expr : Expr} {target : Reservation} {code : Code}
    (h : (expr.lower target).run σ = (.ok code, τ)) : Advances Grows σ τ :=
  expr.operand_grows target h

end Expr

end ArmBackend
