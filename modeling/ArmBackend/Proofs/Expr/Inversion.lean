import ArmBackend.Expr.Lower
import ArmBackend.Proofs.Session

/-!
# What a successful lowering consists of

One lemma for each form: the steps that it takes, in their order, and the code that they make up.
-/

namespace ArmBackend

open Session (onFrame)

namespace Lower

variable {σ τ : Session} {code : Code} {target : Reservation}

theorem lift_run {α : Type} {outcome : Except CompileError α} {a : α}
    (h : (monadLift outcome : CompileM α).run σ = (.ok a, τ)) : outcome = .ok a ∧ τ = σ := by
  rw [StepM.run_monadLift] at h
  exact ⟨(Prod.mk.inj h).1, (Prod.mk.inj h).2.symm⟩

theorem binary_ok {op : BinOp} {ty : Ty} {lhs rhs : Operand}
    (h : (binary op ty target lhs rhs).run σ = (.ok code, τ)) :
    ∃ left leftCode right rightCode opCode, ∃ σ₁ σ₂ σ₃ σ₄ σ₅ : Session,
      (onFrame (Frame.reserveTemp ty)).run σ = (.ok left, σ₁) ∧
      (lhs.lower left).run σ₁ = (.ok leftCode, σ₂) ∧
      (onFrame (Frame.reserveTemp rhs.ty)).run σ₂ = (.ok right, σ₃) ∧
      (rhs.lower right).run σ₃ = (.ok rightCode, σ₄) ∧
      op.code target left right = .ok opCode ∧
      (onFrame Frame.releaseTemp).run σ₄ = (.ok (), σ₅) ∧
      (onFrame Frame.releaseTemp).run σ₅ = (.ok (), τ) ∧
      op.accepts lhs.ty rhs.ty = true ∧ code = leftCode ++ rightCode ++ opCode := by
  obtain ⟨_, σ₀, hcheck, h₀⟩ := StepM.run_bind_eq_ok.mp h
  obtain ⟨left, σ₁, hleft, h₁⟩ := StepM.run_bind_eq_ok.mp h₀
  obtain ⟨leftCode, σ₂, hleftCode, h₂⟩ := StepM.run_bind_eq_ok.mp h₁
  obtain ⟨right, σ₃, hright, h₃⟩ := StepM.run_bind_eq_ok.mp h₂
  obtain ⟨rightCode, σ₄, hrightCode, h₄⟩ := StepM.run_bind_eq_ok.mp h₃
  obtain ⟨opCode, σ₅, hopCode, h₅⟩ := StepM.run_bind_eq_ok.mp h₄
  obtain ⟨_, σ₆, hrelease, h₆⟩ := StepM.run_bind_eq_ok.mp h₅
  obtain ⟨_, σ₇, hrelease', h₇⟩ := StepM.run_bind_eq_ok.mp h₆
  obtain ⟨hok, rfl⟩ := lift_run hcheck
  obtain ⟨hop, rfl⟩ := lift_run hopCode
  cases h₇
  exact ⟨left, leftCode, right, rightCode, opCode, σ₁, σ₂, σ₃, _, σ₆, hleft, hleftCode, hright,
    hrightCode, hop, hrelease, hrelease', Check.binary_eq_ok.mp hok, rfl⟩

theorem unary_ok {op : UnOp} {operand : Operand}
    (h : (unary op target operand).run σ = (.ok code, τ)) :
    op.accepts operand.ty = true ∧
      ((∃ reg, target.register? = some reg ∧ ∃ operandCode opCode,
          (operand.lower (.ofReg operand.ty reg)).run σ = (.ok operandCode, τ) ∧
          op.code target (.ofReg operand.ty reg) = .ok opCode ∧ code = operandCode ++ opCode) ∨
        (target.register? = none ∧ ∃ res operandCode opCode, ∃ σ₁ σ₂ : Session,
          (onFrame (Frame.reserveTemp operand.ty)).run σ = (.ok res, σ₁) ∧
          (operand.lower res).run σ₁ = (.ok operandCode, σ₂) ∧
          op.code target res = .ok opCode ∧
          (onFrame Frame.releaseTemp).run σ₂ = (.ok (), τ) ∧ code = operandCode ++ opCode)) := by
  obtain ⟨_, σ₀, hcheck, h₀⟩ := StepM.run_bind_eq_ok.mp h
  obtain ⟨hok, hσ⟩ := lift_run hcheck
  refine ⟨Check.unary_eq_ok.mp hok, ?_⟩
  cases hreg : target.register? with
  | some reg =>
    simp only [hreg] at h₀
    obtain ⟨operandCode, σ₁, hoperand, h₁⟩ := StepM.run_bind_eq_ok.mp h₀
    obtain ⟨opCode, σ₂, hopCode, h₂⟩ := StepM.run_bind_eq_ok.mp h₁
    obtain ⟨hop, hσ₂⟩ := lift_run hopCode
    cases h₂
    subst hσ hσ₂
    exact Or.inl ⟨reg, rfl, operandCode, opCode, hoperand, hop, rfl⟩
  | none =>
    simp only [hreg] at h₀
    obtain ⟨res, σ₁, hres, h₁⟩ := StepM.run_bind_eq_ok.mp h₀
    obtain ⟨operandCode, σ₂, hoperand, h₂⟩ := StepM.run_bind_eq_ok.mp h₁
    obtain ⟨opCode, σ₃, hopCode, h₃⟩ := StepM.run_bind_eq_ok.mp h₂
    obtain ⟨_, σ₄, hrelease, h₄⟩ := StepM.run_bind_eq_ok.mp h₃
    obtain ⟨hop, hσ₃⟩ := lift_run hopCode
    cases h₄
    subst hσ hσ₃
    exact Or.inr ⟨rfl, res, operandCode, opCode, σ₁, _, hres, hoperand, hop, hrelease, rfl⟩

theorem address_ok {build : Register → Code} (h : address target build = .ok code) :
    ∃ copyCode, Code.copy (target.inRegister target.stagingRegister) target = .ok copyCode ∧
      code = build target.stagingRegister ++ copyCode := by
  obtain ⟨copyCode, hcopy, h₁⟩ := StepM.outcome_bind_eq_ok.mp h
  cases h₁
  exact ⟨copyCode, hcopy, rfl⟩

theorem addressOf_ok {operand : Expr} (h : (addressOf target operand).run σ = (.ok code, τ)) :
    ∃ name ty slot, operand = .var name ty ∧
      (onFrame (Frame.resolve name)).run σ = (.ok slot, τ) ∧
      address target (Code.frameAddress · slot.offset) = .ok code := by
  cases operand with
  | var name ty =>
    obtain ⟨slot, σ₁, hslot, h₁⟩ := StepM.run_bind_eq_ok.mp h
    obtain ⟨haddress, hσ⟩ := lift_run h₁
    subst hσ
    exact ⟨name, ty, slot, rfl, hslot, haddress⟩
  | _ => cases h

theorem string_ok {text : String} (h : (string target text).run σ = (.ok code, τ)) :
    ∃ label, (Session.intern text).run σ = (.ok label, τ) ∧
      address target (Code.labelAddress · label) = .ok code := by
  obtain ⟨label, σ₁, hlabel, h₁⟩ := StepM.run_bind_eq_ok.mp h
  obtain ⟨haddress, hσ⟩ := lift_run h₁
  subst hσ
  exact ⟨label, hlabel, haddress⟩

theorem reserveElements_length {ty : Ty} {count : Nat} {slots slots' : List Slot}
    (h : (reserveElements ty count slots).run σ = (.ok slots', τ)) :
    slots'.length = slots.length + count := by
  induction count generalizing slots σ with
  | zero =>
    cases h
    rfl
  | succ count ih =>
    obtain ⟨slot, σ₁, -, h₁⟩ := StepM.run_bind_eq_ok.mp h
    rw [ih h₁, List.length_cons]
    omega

theorem array_ok {ty : Ty} {operands : List Operand}
    (h : (array ty target operands).run σ = (.ok code, τ)) :
    ∃ elementTy first slots elementsCode addressCode, ∃ σ₁ : Session, ty.pointee? = some elementTy ∧
      (reserveElements elementTy operands.length []).run σ = (.ok (first :: slots), σ₁) ∧
      (elements (first :: slots) operands).run σ₁ = (.ok elementsCode, τ) ∧
      address target (Code.frameAddress · first.offset) = .ok addressCode ∧
      code = elementsCode ++ addressCode := by
  simp only [array] at h
  cases hty : ty.pointee? with
  | none =>
    simp only [hty] at h
    cases h
  | some elementTy =>
    simp only [hty] at h
    obtain ⟨slots, σ₁, hslots, h₁⟩ := StepM.run_bind_eq_ok.mp h
    obtain ⟨elementsCode, σ₂, helements, h₂⟩ := StepM.run_bind_eq_ok.mp h₁
    cases slots with
    | nil => cases h₂
    | cons first slots =>
      obtain ⟨addressCode, σ₃, haddressCode, h₃⟩ := StepM.run_bind_eq_ok.mp h₂
      obtain ⟨haddress, hσ₃⟩ := lift_run haddressCode
      cases h₃
      subst hσ₃
      exact ⟨elementTy, first, slots, elementsCode, addressCode, σ₁, rfl, hslots, helements, haddress,
        rfl⟩

/-! ## Calls -/

theorem length_of_argRegisters {count : Nat} {regs : List Register}
    (h : argRegisters count = .ok regs) :
    regs.length = count := by
  rw [argRegisters] at h
  split at h <;> cases h
  rw [List.length_take]
  omega

theorem shield_calls_ok {arg : Operand} {args : List Operand} {reg : Register}
    {regs : List Register} {out : Code × List (Reservation × Register)} (hcalls : arg.calls = true)
    (h : (shield (arg :: args) (reg :: regs)).run σ = (.ok out, τ)) :
    ∃ res argCode restCode shielded, ∃ σ₁ σ₂ : Session,
      (onFrame (Frame.reserveTemp arg.ty)).run σ = (.ok res, σ₁) ∧
      (arg.lower res).run σ₁ = (.ok argCode, σ₂) ∧
      (shield args regs).run σ₂ = (.ok (restCode, shielded), τ) ∧
      out = (argCode ++ restCode, (res, reg) :: shielded) := by
  simp only [shield, hcalls, if_true] at h
  obtain ⟨res, σ₁, hres, h₁⟩ := StepM.run_bind_eq_ok.mp h
  obtain ⟨argCode, σ₂, harg, h₂⟩ := StepM.run_bind_eq_ok.mp h₁
  obtain ⟨⟨restCode, shielded⟩, σ₃, hrest, h₃⟩ := StepM.run_bind_eq_ok.mp h₂
  cases h₃
  exact ⟨res, argCode, restCode, shielded, σ₁, σ₂, hres, harg, hrest, rfl⟩

theorem shield_quiet {arg : Operand} (args : List Operand) (reg : Register) (regs : List Register)
    (hcalls : arg.calls = false) : shield (arg :: args) (reg :: regs) = shield args regs := by
  simp only [shield, hcalls, Bool.false_eq_true, if_false]

theorem direct_calls {arg : Operand} (args : List Operand) (reg : Register) (regs : List Register)
    (hcalls : arg.calls = true) : direct (arg :: args) (reg :: regs) = direct args regs := by
  simp only [direct, hcalls, if_true]

theorem direct_quiet_ok {arg : Operand} {args : List Operand} {reg : Register}
    {regs : List Register} (hcalls : arg.calls = false)
    (h : (direct (arg :: args) (reg :: regs)).run σ = (.ok code, τ)) :
    ∃ argCode restCode, ∃ σ₁ : Session, (arg.lower (.ofReg arg.ty reg)).run σ = (.ok argCode, σ₁) ∧
      (direct args regs).run σ₁ = (.ok restCode, τ) ∧ code = argCode ++ restCode := by
  simp only [direct, hcalls, Bool.false_eq_true, if_false] at h
  obtain ⟨argCode, σ₁, harg, h₁⟩ := StepM.run_bind_eq_ok.mp h
  obtain ⟨restCode, σ₂, hrest, h₂⟩ := StepM.run_bind_eq_ok.mp h₁
  cases h₂
  exact ⟨argCode, restCode, σ₁, harg, hrest, rfl⟩

theorem unshield_cons_ok {res : Reservation} {reg : Register}
    {shielded : List (Reservation × Register)} (h : unshield ((res, reg) :: shielded) = .ok code) :
    ∃ copyCode restCode, Code.copy res (res.inRegister reg) = .ok copyCode ∧
      unshield shielded = .ok restCode ∧ code = copyCode ++ restCode := by
  obtain ⟨copyCode, hcopy, h₁⟩ := StepM.outcome_bind_eq_ok.mp h
  obtain ⟨restCode, hrest, h₂⟩ := StepM.outcome_bind_eq_ok.mp h₁
  cases h₂
  exact ⟨copyCode, restCode, hcopy, hrest, rfl⟩

theorem arguments_ok {args : List Operand} {regs : List Register}
    (h : (arguments args regs).run σ = (.ok code, τ)) :
    ∃ shieldCode shielded directCode copyCode, ∃ σ₁ σ₂ : Session,
      (shield args regs).run σ = (.ok (shieldCode, shielded), σ₁) ∧
      (direct args regs).run σ₁ = (.ok directCode, σ₂) ∧ unshield shielded = .ok copyCode ∧
      (releaseTemps shielded.length).run σ₂ = (.ok (), τ) ∧
      code = shieldCode ++ directCode ++ copyCode := by
  obtain ⟨⟨shieldCode, shielded⟩, σ₁, hshield, h₁⟩ := StepM.run_bind_eq_ok.mp h
  obtain ⟨directCode, σ₂, hdirect, h₂⟩ := StepM.run_bind_eq_ok.mp h₁
  obtain ⟨copyCode, σ₃, hcopyCode, h₃⟩ := StepM.run_bind_eq_ok.mp h₂
  obtain ⟨_, σ₄, hrelease, h₄⟩ := StepM.run_bind_eq_ok.mp h₃
  obtain ⟨hcopy, hσ₃⟩ := lift_run hcopyCode
  cases h₄
  subst hσ₃
  exact ⟨shieldCode, shielded, directCode, copyCode, σ₁, _, hshield, hdirect, hcopy, hrelease, rfl⟩

theorem functionCall_ok {callee : String} {args : List Operand} {target : Option Reservation}
    (h : (functionCall callee args target).run σ = (.ok code, τ)) :
    ∃ signature regs argCode resultCode f fs, ∃ σ₁ : Session,
      (Session.newest? σ.declared callee).or (Session.newest? σ.defined callee) = some signature ∧
      checkCall signature args target = .ok () ∧ argRegisters args.length = .ok regs ∧
      (arguments args regs).run (Session.markUsed callee σ) = (.ok argCode, σ₁) ∧
      σ₁.frames = f :: fs ∧ result signature.returnTy target = .ok resultCode ∧
      τ = Session.recordSaves f.liveTempRegs.length (Session.recordCall σ₁) ∧
      code = argCode ++ Code.saveRegs f.liveTempRegs ++
        Code.ofInstrs [.bl (σ₁.options.functionLabel callee)] ++
        Code.restoreRegs f.liveTempRegs ++ resultCode := by
  obtain ⟨signature, σ₁, hsignature, h₁⟩ := StepM.run_bind_eq_ok.mp h
  obtain ⟨_, σ₂, hcheck, h₂⟩ := StepM.run_bind_eq_ok.mp h₁
  obtain ⟨_, σ₃, hused, h₃⟩ := StepM.run_bind_eq_ok.mp h₂
  obtain ⟨regs, σ₄, hregs, h₄⟩ := StepM.run_bind_eq_ok.mp h₃
  obtain ⟨argCode, σ₅, hargs, h₅⟩ := StepM.run_bind_eq_ok.mp h₄
  obtain ⟨live, σ₆, hlive, h₆⟩ := StepM.run_bind_eq_ok.mp h₅
  obtain ⟨_, σ₇, hget, h₇⟩ := StepM.run_bind_eq_ok.mp h₆
  obtain ⟨_, σ₈, hcall, h₈⟩ := StepM.run_bind_eq_ok.mp h₇
  obtain ⟨_, σ₉, hsaves, h₉⟩ := StepM.run_bind_eq_ok.mp h₈
  obtain ⟨resultCode, σ₁₀, hresultCode, h₁₀⟩ := StepM.run_bind_eq_ok.mp h₉
  obtain ⟨htable, hσ₁⟩ := Session.signatureOf_ok hsignature
  obtain ⟨hchecked, hσ₂⟩ := lift_run hcheck
  obtain ⟨hargRegs, hσ₄⟩ := lift_run hregs
  obtain ⟨hresult, hσ₁₀⟩ := lift_run hresultCode
  obtain ⟨-, f, fs, g, hframes, hrun, hσ₆⟩ := Session.onFrame_ok hlive
  cases hused
  cases hget
  cases hcall
  cases hsaves
  cases hrun
  cases h₁₀
  rw [← hframes] at hσ₆
  subst hσ₁ hσ₂ hσ₄ hσ₁₀ hσ₆
  exact ⟨signature, regs, argCode, resultCode, _, fs, _, htable, hchecked, hargRegs, hargs, hframes,
    hresult, rfl, rfl⟩

theorem trapOperands_ok {number : Operand} {args : List Operand} {regs : List Register}
    (h : (trapOperands number args regs).run σ = (.ok code, τ)) :
    (∃ res numberCode argCode copyCode, ∃ σ₁ σ₂ σ₃ : Session, number.calls = true ∧
        (onFrame (Frame.reserveTemp .int)).run σ = (.ok res, σ₁) ∧
        (number.lower res).run σ₁ = (.ok numberCode, σ₂) ∧
        (arguments args regs).run σ₂ = (.ok argCode, σ₃) ∧
        Code.copy res (.ofReg .int .trapNumber) = .ok copyCode ∧
        (onFrame Frame.releaseTemp).run σ₃ = (.ok (), τ) ∧
        code = numberCode ++ argCode ++ copyCode) ∨
      (∃ argCode numberCode, ∃ σ₁ : Session, number.calls = false ∧
        (arguments args regs).run σ = (.ok argCode, σ₁) ∧
        (number.lower (.ofReg .int .trapNumber)).run σ₁ = (.ok numberCode, τ) ∧
        code = argCode ++ numberCode) := by
  cases hcalls : number.calls with
  | true =>
    simp only [trapOperands, hcalls, if_true] at h
    obtain ⟨res, σ₁, hres, h₁⟩ := StepM.run_bind_eq_ok.mp h
    obtain ⟨numberCode, σ₂, hnumber, h₂⟩ := StepM.run_bind_eq_ok.mp h₁
    obtain ⟨argCode, σ₃, hargs, h₃⟩ := StepM.run_bind_eq_ok.mp h₂
    obtain ⟨copyCode, σ₄, hcopyCode, h₄⟩ := StepM.run_bind_eq_ok.mp h₃
    obtain ⟨_, σ₅, hrelease, h₅⟩ := StepM.run_bind_eq_ok.mp h₄
    obtain ⟨hcopy, hσ₄⟩ := lift_run hcopyCode
    cases h₅
    subst hσ₄
    exact Or.inl ⟨res, numberCode, argCode, copyCode, σ₁, σ₂, _, rfl, hres, hnumber, hargs, hcopy,
      hrelease, rfl⟩
  | false =>
    simp only [trapOperands, hcalls, Bool.false_eq_true, if_false] at h
    obtain ⟨argCode, σ₁, hargs, h₁⟩ := StepM.run_bind_eq_ok.mp h
    obtain ⟨numberCode, σ₂, hnumber, h₂⟩ := StepM.run_bind_eq_ok.mp h₁
    cases h₂
    exact Or.inr ⟨argCode, numberCode, σ₁, rfl, hargs, hnumber, rfl⟩

theorem trap_ok {operands : List Operand} {target : Option Reservation}
    (h : (trap operands target).run σ = (.ok code, τ)) :
    ∃ number args regs operandCode resultCode, ∃ σ₁ : Session, operands = number :: args ∧
      argRegisters args.length = .ok regs ∧
      (trapOperands number args regs).run σ = (.ok operandCode, σ₁) ∧
      result .int target = .ok resultCode ∧ τ = Session.recordCall σ₁ ∧
      code = operandCode ++ Code.ofInstrs [.svc trapImm] ++ resultCode := by
  cases operands with
  | nil => cases h
  | cons number args =>
    obtain ⟨regs, σ₁, hregs, h₁⟩ := StepM.run_bind_eq_ok.mp h
    obtain ⟨operandCode, σ₂, hoperands, h₂⟩ := StepM.run_bind_eq_ok.mp h₁
    obtain ⟨_, σ₃, hcall, h₃⟩ := StepM.run_bind_eq_ok.mp h₂
    obtain ⟨resultCode, σ₄, hresultCode, h₄⟩ := StepM.run_bind_eq_ok.mp h₃
    obtain ⟨hargRegs, hσ₁⟩ := lift_run hregs
    obtain ⟨hresult, hσ₄⟩ := lift_run hresultCode
    cases hcall
    cases h₄
    subst hσ₁ hσ₄
    exact ⟨number, args, regs, operandCode, resultCode, σ₂, rfl, hargRegs, hoperands, hresult, rfl,
      rfl⟩

end Lower

end ArmBackend
