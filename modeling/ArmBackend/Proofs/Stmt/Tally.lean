import ArmBackend.Proofs.Expr.Tally
import ArmBackend.Proofs.Stmt.Inversion
import ArmBackend.Proofs.Stmt.Shape

/-!
# What the code of a statement adds to the statistics

As for expressions. A branch and a loop record their three labels before anything else is lowered.
-/

namespace ArmBackend

open Session (Tallies onFrame_stats)

variable {σ τ υ : Session} {code : Code}

theorem Session.freshIf_gains {id : Nat} (h : freshIf.run σ = (.ok id, τ)) : σ.stats.Gains 0 0 0 3 τ.stats := by
  cases h
  exact ⟨rfl, rfl, rfl, rfl⟩

theorem Session.freshLoop_gains {id : Nat} (h : freshLoop.run σ = (.ok id, τ)) :
    σ.stats.Gains 0 0 0 3 τ.stats := by
  cases h
  exact ⟨rfl, rfl, rfl, rfl⟩

/-! ## Simple statements -/

namespace Lower

theorem condition_tallies {cond : Expr} (h : (condition cond).run σ = (.ok code, τ)) : Tallies code σ τ := by
  obtain ⟨condCode, hcond, rfl⟩ := condition_ok h
  exact (cond.operand_tallies hcond).append_silent (by simp [Line.mark])

theorem init_tallies {ty : Ty} {name : String} {expr : Expr} (h : (init ty name expr).run σ = (.ok code, τ)) :
    Tallies code σ τ := by
  obtain ⟨slot, σ₁, hslot, hvalue⟩ := init_ok h
  exact (expr.operand_tallies hvalue).after (onFrame_stats hslot)

theorem assign_tallies {name : String} {expr : Expr} (h : (assign name expr).run σ = (.ok code, τ)) :
    Tallies code σ τ := by
  obtain ⟨slot, temp, exprCode, copyCode, σ₁, σ₂, σ₃, hslot, htemp, hvalue, hcopy, hrelease, rfl⟩ :=
    assign_ok h
  have hstats : σ₂.stats = σ.stats := (onFrame_stats htemp).trans (onFrame_stats hslot)
  have hall := ((expr.operand_tallies hvalue).after hstats).before (onFrame_stats hrelease)
  exact hall.append_silent (Code.silent_copy hcopy)

theorem store_tallies {pointer expr : Expr} (h : (store pointer expr).run σ = (.ok code, τ)) :
    Tallies code σ τ := by
  obtain ⟨pointee, pointerSlot, pointerCode, valueSlot, valueCode, loadPointer, loadValue, σ₁, σ₂, σ₃, σ₄,
    σ₅, -, hpointer, hpointerCode, hvalue, hvalueCode, hcopy, hcopy', hrelease, hrelease', rfl⟩ := store_ok h
  have hoperands := ((pointer.operand_tallies hpointerCode).after (onFrame_stats hpointer)).append
    ((expr.operand_tallies hvalueCode).after (onFrame_stats hvalue))
  have hall := (hoperands.before (onFrame_stats hrelease)).before (onFrame_stats hrelease')
  exact ((hall.append_silent (Code.silent_copy hcopy)).append_silent (Code.silent_copy hcopy')).append_silent
    (Code.silent_storeThrough _ _)

theorem ret_tallies {signature : Signature} {expr : Expr} (h : (ret signature expr).run σ = (.ok code, τ)) :
    Tallies code σ τ := by
  obtain ⟨valueCode, rfl, hvalue⟩ := ret_ok h
  have hlowered : Tallies valueCode σ τ := by
    obtain ⟨-, rfl, rfl⟩ | ⟨-, hreturned⟩ := hvalue
    · exact .nil rfl
    · rcases returned_ok hreturned with
        ⟨-, temp, exprCode, copyCode, σ₁, σ₂, htemp, hexpr, hcopy, hrelease, rfl⟩ | ⟨-, hexpr⟩
      · have hall := ((expr.operand_tallies hexpr).after (onFrame_stats htemp)).before (onFrame_stats hrelease)
        exact hall.append_silent (Code.silent_copy hcopy)
      · exact expr.operand_tallies hexpr
  exact hlowered.append_silent (by simp [Line.mark])

theorem leave_tallies {exit : LoopExit} {label : Nat → Label} (h : (leave exit label).run σ = (.ok code, τ)) :
    Tallies code σ τ := by
  obtain ⟨_, _, _, -, -, rfl, rfl⟩ := leave_ok h
  exact .of_silent (by simp [Line.mark]) rfl

end Lower

/-! ## All statements -/

namespace Stmt

variable {signature : Signature}

theorem lowerBlock_tallies_of {stmts : List Stmt}
    (hstmts : ∀ stmt ∈ stmts, ∀ {σ τ code}, (stmt.lower signature).run σ = (.ok code, τ) → Tallies code σ τ)
    (h : (lowerBlock signature stmts).run σ = (.ok code, τ)) : Tallies code σ τ := by
  induction stmts generalizing σ code with
  | nil =>
    cases h
    exact .nil rfl
  | cons stmt stmts ih =>
    obtain ⟨stmtCode, restCode, σ₁, hstmt, hrest, rfl⟩ := block_cons_ok h
    exact (hstmts stmt List.mem_cons_self hstmt).append
      (ih (fun other hother => hstmts other (List.mem_cons_of_mem _ hother)) hrest)

theorem tallied_branch {instr : Instr} {label : Label} (hinstr : (Line.instr instr).mark = .other)
    (hlabel : label.numbered = true) : Code.Tallied [.instr instr, .label label] 0 0 1 :=
  Code.Tallied.append (a := [.instr instr]) (.of_silent (by simp [hinstr])) (.label hlabel)

theorem lower_tallies (stmt : Stmt) (h : (stmt.lower signature).run σ = (.ok code, τ)) : Tallies code σ τ := by
  induction stmt using Stmt.induct generalizing σ code τ with
  | declare ty name =>
    obtain ⟨rfl, slot, hslot⟩ := declare_ok h
    exact .nil (onFrame_stats hslot)
  | init ty name value => exact Lower.init_tallies h
  | assign name value => exact Lower.assign_tallies h
  | store pointer value => exact Lower.store_tallies h
  | ret value => exact Lower.ret_tallies h
  | call callee args =>
    simp only [lower] at h
    exact Lower.call_tallies (Expr.forall_operands.mpr fun expr _ => expr.operand_tallies) h
  | ifElse cond thenBlock elseBlock ihthen ihelse =>
    obtain ⟨id, condCode, thenCode, elseCode, σ₁, σ₂, σ₃, hid, hcond, hthen, helse, rfl⟩ := ifElse_ok h
    obtain ⟨c, s, l, hcondCode, hcondGains⟩ := Lower.condition_tallies hcond
    obtain ⟨c', s', l', hthenCode, hthenGains⟩ := lowerBlock_tallies_of ihthen hthen
    obtain ⟨c'', s'', l'', helseCode, helseGains⟩ := lowerBlock_tallies_of ihelse helse
    have hskip : Code.Tallied [.instr (.bCond .eq (.ifFalse id)), .label (.ifTrue id)] 0 0 1 :=
      tallied_branch rfl rfl
    have hjoin : Code.Tallied [.instr (.b (.ifExit id)), .label (.ifFalse id)] 0 0 1 := tallied_branch rfl rfl
    have hexit : Code.Tallied [.label (.ifExit id)] 0 0 1 := .label rfl
    have hcode := ((((hcondCode.append hskip).append hthenCode).append hjoin).append helseCode).append hexit
    have hgains := (((Session.freshIf_gains hid).trans hcondGains).trans hthenGains).trans helseGains
    refine ⟨_, _, _, by simpa using hcode, hgains.functions, ?_, ?_, ?_⟩
    · exact hgains.calls.trans (by omega)
    · exact hgains.saves.trans (by omega)
    · exact hgains.labels.trans (by omega)
  | loop cond body ih =>
    obtain ⟨id, condCode, bodyCode, σ₁, σ₂, hid, hcond, hinLoop, rfl⟩ := loop_ok h
    obtain ⟨σ₃, σ₄, hpush, hbody, hpop⟩ := Session.inLoop_ok hinLoop
    have hinside := ((lowerBlock_tallies_of ih hbody).after (onFrame_stats hpush)).before (onFrame_stats hpop)
    obtain ⟨c, s, l, hcondCode, hcondGains⟩ := Lower.condition_tallies hcond
    obtain ⟨c', s', l', hbodyCode, hbodyGains⟩ := hinside
    have hstart : Code.Tallied [.label (.loopCond id)] 0 0 1 := .label rfl
    have hskip : Code.Tallied [.instr (.bCond .eq (.loopExit id)), .label (.loopBody id)] 0 0 1 :=
      tallied_branch rfl rfl
    have hrepeat : Code.Tallied [.instr (.b (.loopCond id)), .label (.loopExit id)] 0 0 1 := tallied_branch rfl rfl
    have hcode := (((hstart.append hcondCode).append hskip).append hbodyCode).append hrepeat
    have hgains := ((Session.freshLoop_gains hid).trans hcondGains).trans hbodyGains
    refine ⟨_, _, _, by simpa using hcode, hgains.functions, ?_, ?_, ?_⟩
    · exact hgains.calls.trans (by omega)
    · exact hgains.saves.trans (by omega)
    · exact hgains.labels.trans (by omega)
  | breakLoop => exact Lower.leave_tallies h
  | continueLoop => exact Lower.leave_tallies h

theorem lowerBlock_tallies {stmts : List Stmt} (h : (lowerBlock signature stmts).run σ = (.ok code, τ)) :
    Tallies code σ τ :=
  lowerBlock_tallies_of (fun stmt _ _ _ _ => stmt.lower_tallies) h

end Stmt

end ArmBackend
