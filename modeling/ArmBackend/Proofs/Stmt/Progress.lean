import ArmBackend.Proofs.Expr.Progress
import ArmBackend.Proofs.Stmt.Inversion
import ArmBackend.Proofs.Stmt.Shape

/-!
# Progress of lowering statements

A statement that declares nothing leaves the frame as it was. Others leave it at least with its peak.
-/

namespace ArmBackend

open Session (onFrame Advances onFrame_ok)
open ArmBackend.Frame (Growth Rests)

namespace Frame

structure Passage (R : Frame → Frame → Prop) : Prop extends Growth R where
  loop : ∀ {id f g}, R (f.pushLoop id) g → R f g.popLoop

theorem passage_rests : Passage Rests where
  toGrowth := growth_rests
  loop := fun h =>
    ⟨h.locals, h.temporaries, h.liveRegs, h.symbols, h.position, h.paddings, by
      rw [popLoop, h.loops]
      rfl, h.highWater⟩

/-- The peak stays, and so does the rest of a frame that has a temporary. -/
structure Peaks (f g : Frame) : Prop where
  highWater : f.highWater ≤ g.highWater
  rests : f.temporaries ≠ [] → Rests f g

theorem passage_peaks : Passage Peaks where
  of_rests := fun h => ⟨h.highWater, fun _ => h⟩
  trans := fun hfg hgh => ⟨Nat.le_trans hfg.highWater hgh.highWater, fun hne =>
    (hfg.rests hne).trans (hgh.rests ((hfg.rests hne).temporaries ▸ hne))⟩
  rests := Peaks.rests
  loop := fun h => ⟨h.highWater, fun hne => passage_rests.loop (h.rests hne)⟩

variable {f g : Frame} {ty : Ty}

theorem reserveVariable_peaks {slot : Slot} (h : (reserveVariable ty).run f = (.ok slot, g)) :
    Peaks f g := by
  obtain ⟨hempty, -, -, rfl⟩ := reserveVariable_ok h
  exact ⟨Nat.le_max_left _ _, fun hne => absurd hempty hne⟩

theorem addVariable_peaks {name : String} {slot : Slot}
    (h : (addVariable ty name).run f = (.ok slot, g)) : Peaks f g := by
  obtain ⟨hempty, -, -, rfl⟩ := addVariable_ok h
  exact ⟨Nat.le_max_left _ _, fun hne => absurd hempty hne⟩

theorem releaseVariable_peaks (h : releaseVariable.run f = (.ok (), g)) : Peaks f g := by
  obtain ⟨hempty, _, _, _, _, -, -, rfl⟩ := releaseVariable_ok h
  exact ⟨Nat.le_refl _, fun hne => absurd hempty hne⟩

end Frame

open ArmBackend.Frame (Passage Peaks)

variable {R : Frame → Frame → Prop} {σ τ : Session} {code : Code}

namespace Session

theorem freshIf_advances {id : Nat} (h : freshIf.run σ = (.ok id, τ)) : Advances Rests σ τ := by
  obtain ⟨-, labels, rfl⟩ := freshIf_ok h
  exact { Advances.refl σ with nextIf := Nat.le_succ _ }

theorem freshLoop_advances {id : Nat} (h : freshLoop.run σ = (.ok id, τ)) : Advances Rests σ τ := by
  obtain ⟨-, labels, rfl⟩ := freshLoop_ok h
  exact { Advances.refl σ with nextLoop := Nat.le_succ _ }

theorem inLoop_advances (law : Passage R) {α : Type} {id : Nat} {step : CompileM α} {a : α}
    (hstep : ∀ {σ a τ}, step.run σ = (.ok a, τ) → Advances R σ τ)
    (h : (inLoop id step).run σ = (.ok a, τ)) : Advances R σ τ := by
  obtain ⟨σ₁, σ₂, hpush, hrun, hpop⟩ := inLoop_ok h
  have hpushed : Advances (fun f g => g = f.pushLoop id) σ σ₁ :=
    (onFrame_ok hpush).1.mono fun hrun => by cases hrun; rfl
  have hpopped : Advances (fun f g => g = f.popLoop) σ₂ τ :=
    (onFrame_ok hpop).1.mono fun hrun => by cases hrun; rfl
  have hinner : Advances (fun f g => R (f.pushLoop id) g) σ σ₂ :=
    hpushed.comp (hstep hrun) fun hf hR => hf ▸ hR
  exact hinner.comp hpopped fun hR hg => hg ▸ law.loop hR

end Session

namespace Lower

structure CoversVariables (R : Frame → Frame → Prop) : Prop where
  arrays : CoversArrays R
  add : ∀ {f g : Frame} {ty : Ty} {name : String} {slot : Slot},
    (Frame.addVariable ty name).run f = (.ok slot, g) → R f g
  store : ∀ {pointer expr : Expr} {σ τ : Session} {code : Code},
    (store pointer expr).run σ = (.ok code, τ) → Advances R σ τ

theorem assign_advances (law : Growth R) {name : String} {expr : Expr}
    (hexpr : expr.operand.Keeps R) (h : (assign name expr).run σ = (.ok code, τ)) :
    Advances Rests σ τ := by
  obtain ⟨slot, temp, exprCode, copyCode, σ₁, σ₂, σ₃, hslot, htemp, hexprCode, -, hrelease, -⟩ :=
    assign_ok h
  exact (resolve_advances hslot).comp
    (Advances.bracket law htemp (hexpr temp hexprCode) hrelease) Rests.trans

theorem ret_advances (law : Growth R) {signature : Signature} {expr : Expr}
    (hexpr : expr.operand.Keeps R) (h : (ret signature expr).run σ = (.ok code, τ)) :
    Advances R σ τ := by
  obtain ⟨valueCode, -, ⟨-, -, rfl⟩ | ⟨-, hvalue⟩⟩ := ret_ok h
  · exact (Advances.refl _).mono law.of_rests
  · rcases returned_ok hvalue with
      ⟨-, temp, exprCode, copyCode, σ₁, σ₂, htemp, hexprCode, -, hrelease, -⟩ | ⟨-, hexprCode⟩
    · exact (Advances.bracket law htemp (hexpr temp hexprCode) hrelease).mono law.of_rests
    · exact hexpr _ hexprCode

theorem condition_advances {cond : Expr} (hcond : cond.operand.Keeps R)
    (h : (condition cond).run σ = (.ok code, τ)) : Advances R σ τ := by
  obtain ⟨condCode, hcondCode, -⟩ := condition_ok h
  exact hcond _ hcondCode

theorem leave_advances (law : Growth R) {exit : LoopExit} {label : Nat → Label}
    (h : (leave exit label).run σ = (.ok code, τ)) : Advances R σ τ := by
  obtain ⟨_, _, _, -, -, rfl, -⟩ := leave_ok h
  exact (Advances.refl _).mono law.of_rests

theorem operand_peaks (expr : Expr) : expr.operand.Keeps Peaks :=
  expr.operand_keeps Frame.passage_peaks.toGrowth (Or.inl Frame.reserveVariable_peaks)

theorem store_peaks {pointer expr : Expr} (h : (store pointer expr).run σ = (.ok code, τ)) :
    Advances Peaks σ τ := by
  obtain ⟨pointee, pointerSlot, pointerCode, valueSlot, valueCode, loadPointer, loadValue, σ₁, σ₂, σ₃,
    σ₄, σ₅, -, hpointer, hpointerCode, hvalue, hvalueCode, -, -, hrelease, hrelease', -⟩ := store_ok h
  have htrans : ∀ {f g h}, Peaks f g → Peaks g h → Peaks f h := Frame.passage_peaks.trans
  have h₁ := (onFrame_ok hpointer).1.mono Frame.reserveVariable_peaks
  have h₂ := h₁.comp (operand_peaks pointer _ hpointerCode) htrans
  have h₃ := h₂.comp ((onFrame_ok hvalue).1.mono Frame.reserveVariable_peaks) htrans
  have h₄ := h₃.comp (operand_peaks expr _ hvalueCode) htrans
  have h₅ := h₄.comp ((onFrame_ok hrelease).1.mono Frame.releaseVariable_peaks) htrans
  exact h₅.comp ((onFrame_ok hrelease').1.mono Frame.releaseVariable_peaks) htrans

theorem coversVariables_peaks : CoversVariables Peaks :=
  ⟨Frame.reserveVariable_peaks, Frame.addVariable_peaks, store_peaks⟩

end Lower

namespace Stmt

variable {signature : Signature}

theorem lowerBlock_advances_of (law : Growth R) {stmts : List Stmt}
    (hstmts : ∀ stmt ∈ stmts, ∀ {σ code τ}, (stmt.lower signature).run σ = (.ok code, τ) →
      Advances R σ τ) (h : (lowerBlock signature stmts).run σ = (.ok code, τ)) :
    Advances R σ τ := by
  induction stmts generalizing σ code with
  | nil =>
    cases h
    exact (Advances.refl _).mono law.of_rests
  | cons stmt stmts ih =>
    obtain ⟨stmtCode, restCode, σ₁, hstmt, hrest, -⟩ := block_cons_ok h
    exact (hstmts stmt List.mem_cons_self hstmt).comp
      (ih (fun other hother => hstmts other (List.mem_cons_of_mem _ hother)) hrest) law.trans

/-- Lowering a statement changes the frame as `R` says, if `R` covers variables or the statement does
without them. -/
theorem lower_advances_of (law : Passage R) (stmt : Stmt)
    (hstmt : Lower.CoversVariables R ∨ stmt.Inner)
    (h : (stmt.lower signature).run σ = (.ok code, τ)) : Advances R σ τ := by
  have hexpr : ∀ {expr : Expr}, Lower.CoversVariables R ∨ expr.Plain → expr.operand.Keeps R :=
    fun {expr} hexpr =>
      expr.operand_keeps law.toGrowth (hexpr.imp Lower.CoversVariables.arrays Expr.Plain.arrayFree)
  induction stmt using Stmt.induct generalizing σ code τ with
  | declare ty name =>
    obtain ⟨-, slot, hslot⟩ := declare_ok h
    exact (onFrame_ok hslot).1.mono (hstmt.resolve_right id).add
  | init ty name value =>
    have hcovers := hstmt.resolve_right id
    obtain ⟨slot, σ₁, hslot, hvalue⟩ := Lower.init_ok h
    exact ((onFrame_ok hslot).1.mono hcovers.add).comp (hexpr (Or.inl hcovers) _ hvalue) law.trans
  | assign name value => exact (Lower.assign_advances law.toGrowth (hexpr hstmt) h).mono law.of_rests
  | store pointer value => exact (hstmt.resolve_right id).store h
  | ret value => exact Lower.ret_advances law.toGrowth (hexpr hstmt) h
  | call callee args =>
    refine Lower.call_advances law.toGrowth (Expr.forall_operands.mpr fun arg harg => ?_) h
    exact hexpr (hstmt.imp_right fun hplain => hplain arg harg)
  | ifElse cond thenBlock elseBlock ihthen ihelse =>
    obtain ⟨id, condCode, thenCode, elseCode, σ₁, σ₂, σ₃, hid, hcond, hthen, helse, -⟩ := ifElse_ok h
    have hcond₁ := (Session.freshIf_advances hid).comp (Lower.condition_advances
      (hexpr (hstmt.imp_right And.left)) hcond) fun hrest hR => law.trans (law.of_rests hrest) hR
    have hthen₁ := hcond₁.comp (lowerBlock_advances_of law.toGrowth (fun stmt hmem _ _ _ hrun =>
      ihthen stmt hmem (hstmt.imp_right fun h => allInner_iff.mp h.2.1 stmt hmem) hrun) hthen) law.trans
    exact hthen₁.comp (lowerBlock_advances_of law.toGrowth (fun stmt hmem _ _ _ hrun =>
      ihelse stmt hmem (hstmt.imp_right fun h => allInner_iff.mp h.2.2 stmt hmem) hrun) helse) law.trans
  | loop cond body ih =>
    obtain ⟨id, condCode, bodyCode, σ₁, σ₂, hid, hcond, hbody, -⟩ := loop_ok h
    have hcond₁ := (Session.freshLoop_advances hid).comp (Lower.condition_advances
      (hexpr (hstmt.imp_right And.left)) hcond) fun hrest hR => law.trans (law.of_rests hrest) hR
    refine hcond₁.comp (Session.inLoop_advances law (fun hrun => ?_) hbody) law.trans
    exact lowerBlock_advances_of law.toGrowth (fun stmt hmem _ _ _ hrun =>
      ih stmt hmem (hstmt.imp_right fun h => allInner_iff.mp h.2 stmt hmem) hrun) hrun
  | breakLoop => exact Lower.leave_advances law.toGrowth h
  | continueLoop => exact Lower.leave_advances law.toGrowth h

theorem lower_rests {stmt : Stmt} (hstmt : stmt.Inner)
    (h : (stmt.lower signature).run σ = (.ok code, τ)) : Advances Rests σ τ :=
  stmt.lower_advances_of Frame.passage_rests (Or.inr hstmt) h

theorem lowerBlock_rests {stmts : List Stmt} (hstmts : AllInner stmts)
    (h : (lowerBlock signature stmts).run σ = (.ok code, τ)) : Advances Rests σ τ :=
  lowerBlock_advances_of Frame.growth_rests
    (fun _ hmem => lower_rests (allInner_iff.mp hstmts _ hmem)) h

theorem lower_peaks {stmt : Stmt} (h : (stmt.lower signature).run σ = (.ok code, τ)) :
    Advances Peaks σ τ :=
  stmt.lower_advances_of Frame.passage_peaks (Or.inl Lower.coversVariables_peaks) h

theorem lowerBlock_peaks {stmts : List Stmt}
    (h : (lowerBlock signature stmts).run σ = (.ok code, τ)) : Advances Peaks σ τ :=
  lowerBlock_advances_of Frame.passage_peaks.toGrowth (fun _ _ => lower_peaks) h

end Stmt

end ArmBackend
