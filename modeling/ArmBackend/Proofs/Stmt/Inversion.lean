import ArmBackend.Proofs.Expr.Inversion
import ArmBackend.Stmt.Lower

/-!
# What a successful lowering of a statement consists of

One lemma for each form, as for expressions.
-/

namespace ArmBackend

open Session (onFrame)

variable {σ τ : Session} {code : Code}

/-! ## Ids and loops -/

namespace Session

theorem freshIf_ok {id : Nat} (h : freshIf.run σ = (.ok id, τ)) :
    id = σ.nextIf ∧ ∃ labels,
      τ = { σ with nextIf := σ.nextIf + 1, stats := { σ.stats with labels } } := by
  cases h
  exact ⟨rfl, _, rfl⟩

theorem freshLoop_ok {id : Nat} (h : freshLoop.run σ = (.ok id, τ)) :
    id = σ.nextLoop ∧ ∃ labels,
      τ = { σ with nextLoop := σ.nextLoop + 1, stats := { σ.stats with labels } } := by
  cases h
  exact ⟨rfl, _, rfl⟩

theorem inLoop_ok {α : Type} {id : Nat} {step : CompileM α} {a : α}
    (h : (inLoop id step).run σ = (.ok a, τ)) :
    ∃ σ₁ σ₂, (onFrame (modify (Frame.pushLoop id))).run σ = (.ok (), σ₁) ∧
      step.run σ₁ = (.ok a, σ₂) ∧ (onFrame (modify Frame.popLoop)).run σ₂ = (.ok (), τ) := by
  obtain ⟨_, σ₁, hpush, h₁⟩ := StepM.run_bind_eq_ok.mp h
  obtain ⟨outcome, σ₂, hattempt, h₂⟩ := StepM.run_bind_eq_ok.mp h₁
  obtain ⟨_, σ₃, hpop, h₃⟩ := StepM.run_bind_eq_ok.mp h₂
  obtain ⟨rfl, hτ⟩ := Lower.lift_run h₃
  subst hτ
  rw [StepM.run_attempt] at hattempt
  obtain ⟨hok, rfl⟩ := Prod.mk.inj hattempt
  exact ⟨σ₁, _, hpush, Prod.ext (Except.ok.inj hok) rfl, hpop⟩

end Session

namespace Lower

/-! ## Values -/

theorem value_ok {target : Reservation} {expr : Expr}
    (h : (value target expr).run σ = (.ok code, τ)) : (expr.lower target).run σ = (.ok code, τ) := by
  obtain ⟨_, σ₁, hcheck, h₁⟩ := StepM.run_bind_eq_ok.mp h
  obtain ⟨-, rfl⟩ := lift_run hcheck
  exact h₁

theorem condition_ok {cond : Expr} (h : (condition cond).run σ = (.ok code, τ)) :
    ∃ condCode, (cond.lower (.ofReg cond.ty .staging)).run σ = (.ok condCode, τ) ∧
      code = condCode ++ Code.ofInstrs [.cmpImm .staging 0] := by
  obtain ⟨condCode, σ₁, hvalue, h₁⟩ := StepM.run_bind_eq_ok.mp h
  cases h₁
  exact ⟨condCode, value_ok hvalue, rfl⟩

theorem init_ok {ty : Ty} {name : String} {expr : Expr}
    (h : (init ty name expr).run σ = (.ok code, τ)) :
    ∃ slot σ₁, (onFrame (Frame.addVariable ty name)).run σ = (.ok slot, σ₁) ∧
      (expr.lower slot.reservation).run σ₁ = (.ok code, τ) := by
  obtain ⟨_, σ₀, hcheck, h₀⟩ := StepM.run_bind_eq_ok.mp h
  obtain ⟨slot, σ₁, hslot, h₁⟩ := StepM.run_bind_eq_ok.mp h₀
  obtain ⟨-, rfl⟩ := lift_run hcheck
  exact ⟨slot, σ₁, hslot, value_ok h₁⟩

theorem assign_ok {name : String} {expr : Expr} (h : (assign name expr).run σ = (.ok code, τ)) :
    ∃ slot temp exprCode copyCode σ₁ σ₂ σ₃,
      (onFrame (Frame.resolve name)).run σ = (.ok slot, σ₁) ∧
      (onFrame (Frame.reserveTemp slot.ty)).run σ₁ = (.ok temp, σ₂) ∧
      (expr.lower temp).run σ₂ = (.ok exprCode, σ₃) ∧
      Code.copy temp slot.reservation = .ok copyCode ∧
      (onFrame Frame.releaseTemp).run σ₃ = (.ok (), τ) ∧ code = exprCode ++ copyCode := by
  obtain ⟨slot, σ₁, hslot, h₁⟩ := StepM.run_bind_eq_ok.mp h
  obtain ⟨temp, σ₂, htemp, h₂⟩ := StepM.run_bind_eq_ok.mp h₁
  obtain ⟨exprCode, σ₃, hvalue, h₃⟩ := StepM.run_bind_eq_ok.mp h₂
  obtain ⟨copyCode, σ₄, hcopyCode, h₄⟩ := StepM.run_bind_eq_ok.mp h₃
  obtain ⟨_, σ₅, hrelease, h₅⟩ := StepM.run_bind_eq_ok.mp h₄
  obtain ⟨hcopy, rfl⟩ := lift_run hcopyCode
  cases h₅
  exact ⟨slot, temp, exprCode, copyCode, σ₁, σ₂, _, hslot, htemp, value_ok hvalue, hcopy, hrelease, rfl⟩

theorem store_ok {pointer expr : Expr} (h : (store pointer expr).run σ = (.ok code, τ)) :
    ∃ pointee pointerSlot pointerCode valueSlot valueCode loadPointer loadValue σ₁ σ₂ σ₃ σ₄ σ₅,
      storedTy pointer.ty = .ok pointee ∧
      (onFrame (Frame.reserveVariable pointer.ty)).run σ = (.ok pointerSlot, σ₁) ∧
      (pointer.lower pointerSlot.reservation).run σ₁ = (.ok pointerCode, σ₂) ∧
      (onFrame (Frame.reserveVariable pointee)).run σ₂ = (.ok valueSlot, σ₃) ∧
      (expr.lower valueSlot.reservation).run σ₃ = (.ok valueCode, σ₄) ∧
      Code.copy pointerSlot.reservation (pointerSlot.reservation.inRegister .staging) =
        .ok loadPointer ∧
      Code.copy valueSlot.reservation (valueSlot.reservation.inRegister .operand) = .ok loadValue ∧
      (onFrame Frame.releaseVariable).run σ₄ = (.ok (), σ₅) ∧
      (onFrame Frame.releaseVariable).run σ₅ = (.ok (), τ) ∧
      code = pointerCode ++ valueCode ++ loadPointer ++ loadValue ++
        Code.storeThrough .operand .staging pointee := by
  obtain ⟨pointee, σ₀, htype, h₀⟩ := StepM.run_bind_eq_ok.mp h
  obtain ⟨_, σ₀', hcheck, h₀'⟩ := StepM.run_bind_eq_ok.mp h₀
  obtain ⟨pointerSlot, σ₁, hpointer, h₁⟩ := StepM.run_bind_eq_ok.mp h₀'
  obtain ⟨pointerCode, σ₂, hpointerCode, h₂⟩ := StepM.run_bind_eq_ok.mp h₁
  obtain ⟨valueSlot, σ₃, hvalue, h₃⟩ := StepM.run_bind_eq_ok.mp h₂
  obtain ⟨valueCode, σ₄, hvalueCode, h₄⟩ := StepM.run_bind_eq_ok.mp h₃
  obtain ⟨loadPointer, σ₄', hloadPointer, h₅⟩ := StepM.run_bind_eq_ok.mp h₄
  obtain ⟨loadValue, σ₄'', hloadValue, h₆⟩ := StepM.run_bind_eq_ok.mp h₅
  obtain ⟨_, σ₅, hrelease, h₇⟩ := StepM.run_bind_eq_ok.mp h₆
  obtain ⟨_, σ₆, hrelease', h₈⟩ := StepM.run_bind_eq_ok.mp h₇
  obtain ⟨hstored, rfl⟩ := lift_run htype
  obtain ⟨-, rfl⟩ := lift_run hcheck
  obtain ⟨hcopy, rfl⟩ := lift_run hloadPointer
  obtain ⟨hcopy', rfl⟩ := lift_run hloadValue
  cases h₈
  exact ⟨pointee, pointerSlot, pointerCode, valueSlot, valueCode, loadPointer, loadValue, _, σ₂, σ₃, _,
    σ₅, hstored, hpointer, value_ok hpointerCode, hvalue, value_ok hvalueCode, hcopy, hcopy', hrelease,
    hrelease', rfl⟩

/-! ## Leaving -/

theorem returned_ok {ty : Ty} {expr : Expr} (h : (returned ty expr).run σ = (.ok code, τ)) :
    (expr.containsCalls = true ∧ ∃ temp exprCode copyCode σ₁ σ₂,
        (onFrame (Frame.reserveTemp ty)).run σ = (.ok temp, σ₁) ∧
        (expr.lower temp).run σ₁ = (.ok exprCode, σ₂) ∧
        Code.copy temp (.ofReg ty .result) = .ok copyCode ∧
        (onFrame Frame.releaseTemp).run σ₂ = (.ok (), τ) ∧ code = exprCode ++ copyCode) ∨
      (expr.containsCalls = false ∧ (expr.lower (.ofReg ty .result)).run σ = (.ok code, τ)) := by
  cases hcalls : expr.containsCalls with
  | true =>
    simp only [returned, hcalls, if_true] at h
    obtain ⟨temp, σ₁, htemp, h₁⟩ := StepM.run_bind_eq_ok.mp h
    obtain ⟨exprCode, σ₂, hexpr, h₂⟩ := StepM.run_bind_eq_ok.mp h₁
    obtain ⟨copyCode, σ₃, hcopyCode, h₃⟩ := StepM.run_bind_eq_ok.mp h₂
    obtain ⟨_, σ₄, hrelease, h₄⟩ := StepM.run_bind_eq_ok.mp h₃
    obtain ⟨hcopy, rfl⟩ := lift_run hcopyCode
    cases h₄
    exact Or.inl ⟨rfl, temp, exprCode, copyCode, σ₁, _, htemp, hexpr, hcopy, hrelease, rfl⟩
  | false =>
    simp only [returned, hcalls, Bool.false_eq_true, if_false] at h
    exact Or.inr ⟨rfl, h⟩

theorem ret_ok {signature : Signature} {expr : Expr}
    (h : (ret signature expr).run σ = (.ok code, τ)) :
    ∃ valueCode, code = valueCode ++ Code.ofInstrs [.b (.returnOf signature.name)] ∧
      ((expr.isEmpty = true ∧ valueCode = [] ∧ τ = σ) ∨
        (expr.isEmpty = false ∧ (returned signature.returnTy expr).run σ = (.ok valueCode, τ))) := by
  cases hempty : expr.isEmpty <;> cases hvoid : signature.returnTy.isVoid <;>
    simp only [ret, hempty, hvoid] at h
  case false.false =>
    obtain ⟨valueCode, σ₁, hvalue, h₁⟩ := StepM.run_bind_eq_ok.mp h
    cases h₁
    exact ⟨valueCode, rfl, Or.inr ⟨rfl, hvalue⟩⟩
  case false.true => cases h
  case true.false => cases h
  case true.true =>
    cases h
    exact ⟨[], rfl, Or.inl ⟨rfl, rfl, rfl⟩⟩

theorem leave_ok {exit : LoopExit} {label : Nat → Label}
    (h : (leave exit label).run σ = (.ok code, τ)) :
    ∃ f fs id, σ.frames = f :: fs ∧ f.loops.head? = some id ∧ τ = σ ∧
      code = Code.ofInstrs [.b (label id)] := by
  obtain ⟨loop?, σ₁, hloop, h₁⟩ := StepM.run_bind_eq_ok.mp h
  obtain ⟨-, f, fs, g, hframes, hrun, rfl⟩ := Session.onFrame_ok hloop
  cases hrun
  cases hid : f.loops.head? with
  | none =>
    simp only [Frame.currentLoop?, hid] at h₁
    cases h₁
  | some id =>
    simp only [Frame.currentLoop?, hid] at h₁
    cases h₁
    exact ⟨f, fs, id, hframes, hid, by rw [← hframes], rfl⟩

end Lower

/-! ## Statements -/

namespace Stmt

variable {signature : Signature}

theorem declare_ok {ty : Ty} {name : String}
    (h : ((Stmt.declare ty name).lower signature).run σ = (.ok code, τ)) :
    code = [] ∧ ∃ slot, (onFrame (Frame.addVariable ty name)).run σ = (.ok slot, τ) := by
  obtain ⟨slot, σ₁, hslot, h₁⟩ := StepM.run_bind_eq_ok.mp h
  cases h₁
  exact ⟨rfl, slot, hslot⟩

theorem ifElse_ok {cond : Expr} {thenBlock elseBlock : List Stmt}
    (h : ((Stmt.ifElse cond thenBlock elseBlock).lower signature).run σ = (.ok code, τ)) :
    ∃ id condCode thenCode elseCode σ₁ σ₂ σ₃, Session.freshIf.run σ = (.ok id, σ₁) ∧
      (Lower.condition cond).run σ₁ = (.ok condCode, σ₂) ∧
      (lowerBlock signature thenBlock).run σ₂ = (.ok thenCode, σ₃) ∧
      (lowerBlock signature elseBlock).run σ₃ = (.ok elseCode, τ) ∧
      code = condCode ++ .instr (.bCond .eq (.ifFalse id)) :: .label (.ifTrue id) :: thenCode ++
        .instr (.b (.ifExit id)) :: .label (.ifFalse id) :: elseCode ++ [.label (.ifExit id)] := by
  obtain ⟨id, σ₁, hid, h₁⟩ := StepM.run_bind_eq_ok.mp h
  obtain ⟨condCode, σ₂, hcond, h₂⟩ := StepM.run_bind_eq_ok.mp h₁
  obtain ⟨thenCode, σ₃, hthen, h₃⟩ := StepM.run_bind_eq_ok.mp h₂
  obtain ⟨elseCode, σ₄, helse, h₄⟩ := StepM.run_bind_eq_ok.mp h₃
  cases h₄
  exact ⟨id, condCode, thenCode, elseCode, σ₁, σ₂, σ₃, hid, hcond, hthen, helse, rfl⟩

theorem loop_ok {cond : Expr} {body : List Stmt}
    (h : ((Stmt.loop cond body).lower signature).run σ = (.ok code, τ)) :
    ∃ id condCode bodyCode σ₁ σ₂, Session.freshLoop.run σ = (.ok id, σ₁) ∧
      (Lower.condition cond).run σ₁ = (.ok condCode, σ₂) ∧
      (Session.inLoop id (lowerBlock signature body)).run σ₂ = (.ok bodyCode, τ) ∧
      code = .label (.loopCond id) :: condCode ++
        .instr (.bCond .eq (.loopExit id)) :: .label (.loopBody id) :: bodyCode ++
        [.instr (.b (.loopCond id)), .label (.loopExit id)] := by
  obtain ⟨id, σ₁, hid, h₁⟩ := StepM.run_bind_eq_ok.mp h
  obtain ⟨condCode, σ₂, hcond, h₂⟩ := StepM.run_bind_eq_ok.mp h₁
  obtain ⟨bodyCode, σ₃, hbody, h₃⟩ := StepM.run_bind_eq_ok.mp h₂
  cases h₃
  exact ⟨id, condCode, bodyCode, σ₁, σ₂, hid, hcond, hbody, rfl⟩

theorem block_cons_ok {stmt : Stmt} {stmts : List Stmt}
    (h : (lowerBlock signature (stmt :: stmts)).run σ = (.ok code, τ)) :
    ∃ stmtCode restCode σ₁, (stmt.lower signature).run σ = (.ok stmtCode, σ₁) ∧
      (lowerBlock signature stmts).run σ₁ = (.ok restCode, τ) ∧ code = stmtCode ++ restCode := by
  obtain ⟨stmtCode, σ₁, hstmt, h₁⟩ := StepM.run_bind_eq_ok.mp h
  obtain ⟨restCode, σ₂, hrest, h₂⟩ := StepM.run_bind_eq_ok.mp h₁
  cases h₂
  exact ⟨stmtCode, restCode, σ₁, hstmt, hrest, rfl⟩

end Stmt

end ArmBackend
