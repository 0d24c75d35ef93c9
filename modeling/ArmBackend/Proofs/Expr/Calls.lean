import ArmBackend.Proofs.Expr.Inversion
import ArmBackend.Proofs.Expr.Shape
import ArmBackend.Proofs.Machine.Tally

/-!
# Which expressions call out

The code of an expression calls out exactly if the expression contains a call. What calls out is evaluated
into temporaries before any argument register is written, and nothing calls out from there to the branch.
-/

namespace ArmBackend

open Session (onFrame onFrame_ok)

namespace Code

/-- Whether a line of the code branches with link or traps. -/
def callsOut (code : Code) : Bool := code.any (·.mark.callsOut)

variable {a b code : Code}

@[simp] theorem callsOut_nil : callsOut [] = false := rfl

@[simp] theorem callsOut_cons (line : Line) (code : Code) :
    callsOut (line :: code) = (line.mark.callsOut || code.callsOut) := rfl

@[simp] theorem callsOut_append (a b : Code) : (a ++ b).callsOut = (a.callsOut || b.callsOut) :=
  List.any_append

theorem Silent.callsOut (h : code.Silent) : code.callsOut = false :=
  List.any_eq_false.mpr fun line hmem => by simp [h line hmem, Mark.callsOut]

theorem Tallied.callsOut {saves labels : Nat} (h : code.Tallied 0 saves labels) :
    code.callsOut = false :=
  List.any_eq_false.mpr fun _ hmem => List.countP_eq_zero.mp h.calls _ (List.mem_map_of_mem hmem)

@[simp] theorem callsOut_saveRegs (regs : List Register) : (saveRegs regs).callsOut = false := by
  rw [saveRegs]
  induction regs using pushes.induct with
  | case1 => rfl
  | case2 reg => rfl
  | case3 first second regs ih => simpa [pushes, ofInstrs, Line.mark, Mark.callsOut] using ih

@[simp] theorem callsOut_restoreRegs (regs : List Register) : (restoreRegs regs).callsOut = false := by
  rw [restoreRegs]
  induction regs using pops.induct with
  | case1 => rfl
  | case2 reg => rfl
  | case3 first second regs ih => simpa [pops, ofInstrs, Line.mark, Mark.callsOut] using ih

theorem callsOut_readAll {indent : Nat} (hproper : ∀ line ∈ code, line.Proper)
    (hplaced : ∀ label ∈ code.labels, label.Placed) :
    (Mark.readAll (code.render indent)).any Mark.callsOut = code.callsOut := by
  rw [readAll_render hproper hplaced, List.any_append, marks, List.any_map]
  exact Bool.or_false _

end Code

def Reservation.Temporary (res : Reservation) : Prop :=
  (∃ reg ∈ Register.tempBank, res.location = .reg reg) ∨ ∃ offset : Nat, res.location = .slot offset

theorem Frame.reserveTemp_temporary {f g : Frame} {ty : Ty} {res : Reservation}
    (h : (reserveTemp ty).run f = (.ok res, g)) : res.Temporary := by
  obtain ⟨-, ⟨reg, hbank, -, rfl, -⟩ | ⟨rfl, -⟩⟩ := reserveTemp_ok h
  · exact Or.inl ⟨reg, hbank, rfl⟩
  · exact Or.inr ⟨_, rfl⟩

theorem Session.reserveTemp_temporary {σ τ : Session} {ty : Ty} {res : Reservation}
    (h : (onFrame (Frame.reserveTemp ty)).run σ = (.ok res, τ)) : res.Temporary := by
  obtain ⟨-, _, _, _, -, hrun, -⟩ := onFrame_ok h
  exact Frame.reserveTemp_temporary hrun

def Operand.Exact (operand : Operand) : Prop :=
  ∀ {target σ code τ}, (operand.lower target).run σ = (.ok code, τ) → code.callsOut = operand.calls

/-! ## Arrangement -/

inductive Shielding : List Operand → Code → Prop
  | nil : Shielding [] []
  | cons {operand : Operand} {operands : List Operand} {res : Reservation} {σ τ : Session}
      {code rest : Code} (temporary : res.Temporary)
      (lowered : (operand.lower res).run σ = (.ok code, τ)) (later : Shielding operands rest) :
      Shielding (operand :: operands) (code ++ rest)

inductive Placing : List (Operand × Register) → Code → Prop
  | nil : Placing [] []
  | cons {operand : Operand} {reg : Register} {placed : List (Operand × Register)} {ty : Ty}
      {σ τ : Session} {code rest : Code}
      (lowered : (operand.lower (.ofReg ty reg)).run σ = (.ok code, τ))
      (quiet : code.callsOut = false) (later : Placing placed rest) :
      Placing ((operand, reg) :: placed) (code ++ rest)

/-- Code that first evaluates some operands into temporaries and then others straight into registers. No
line calls out once a register is written. -/
inductive Staged (shielded : List Operand) (placed : List (Operand × Register)) : Code → Prop
  | intro {before straight moves : Code} (shielding : Shielding shielded before)
      (placing : Placing placed straight) (quiet : moves.callsOut = false) :
      Staged shielded placed (before ++ straight ++ moves)

/-- Staged code and the branch of a call behind it, which is the last line that calls out. -/
inductive Dispatched (shielded : List Operand) (placed : List (Operand × Register)) : Code → Prop
  | intro {operandCode rest : Code} {branch : Instr} (staged : Staged shielded placed operandCode)
      (branches : (Line.instr branch).mark.callsOut = true) (quiet : rest.callsOut = false) :
      Dispatched shielded placed (operandCode ++ .instr branch :: rest)

variable {shielded : List Operand} {placed : List (Operand × Register)}

theorem Dispatched.callsOut {code : Code} (h : Dispatched shielded placed code) :
    code.callsOut = true := by
  cases h with
  | intro _ branches => simp [branches]

theorem Shielding.callsOut {code : Code} (h : Shielding shielded code)
    (hexact : ∀ operand ∈ shielded, operand.Exact) : code.callsOut = shielded.any Operand.calls := by
  induction h with
  | nil => rfl
  | cons _ lowered _ ih =>
    obtain ⟨hoperand, hrest⟩ := List.forall_mem_cons.mp hexact
    rw [Code.callsOut_append, hoperand lowered, ih hrest, List.any_cons]

theorem Placing.callsOut {code : Code} (h : Placing placed code) : code.callsOut = false := by
  induction h with
  | nil => rfl
  | cons _ quiet _ ih => rw [Code.callsOut_append, quiet, ih, Bool.or_false]

theorem Staged.callsOut {code : Code} (h : Staged shielded placed code)
    (hexact : ∀ operand ∈ shielded, operand.Exact) : code.callsOut = shielded.any Operand.calls := by
  cases h with
  | intro shielding placing quiet =>
    rw [Code.callsOut_append, Code.callsOut_append, shielding.callsOut hexact, placing.callsOut, quiet,
      Bool.or_false, Bool.or_false]

theorem Placing.singleton {operand : Operand} {reg : Register} {ty : Ty} {σ τ : Session} {code : Code}
    (lowered : (operand.lower (.ofReg ty reg)).run σ = (.ok code, τ)) (quiet : code.callsOut = false) :
    Placing [(operand, reg)] code :=
  List.append_nil code ▸ .cons lowered quiet .nil

theorem Shielding.singleton {operand : Operand} {res : Reservation} {σ τ : Session} {code : Code}
    (temporary : res.Temporary) (lowered : (operand.lower res).run σ = (.ok code, τ)) :
    Shielding [operand] code :=
  List.append_nil code ▸ .cons temporary lowered .nil

theorem Staged.quiet {code moves : Code} (h : Staged shielded placed code) (hquiet : moves.callsOut = false) :
    Staged shielded placed (code ++ moves) := by
  cases h with
  | intro shielding placing quiet =>
    rw [List.append_assoc]
    exact .intro shielding placing (by simp [quiet, hquiet])

namespace Lower

variable {σ τ : Session} {code : Code} {target : Reservation} {operands : List Operand}
  {regs : List Register}

/-! ## Operators and arrays -/

theorem binary_callsOut {op : BinOp} {ty : Ty} {lhs rhs : Operand} (hlhs : lhs.Exact) (hrhs : rhs.Exact)
    (h : (binary op ty target lhs rhs).run σ = (.ok code, τ)) :
    code.callsOut = (lhs.calls || rhs.calls) := by
  obtain ⟨left, leftCode, right, rightCode, opCode, σ₁, σ₂, σ₃, σ₄, σ₅, -, hleftCode, -, hrightCode, hop,
    -, -, -, rfl⟩ := binary_ok h
  simp [hlhs hleftCode, hrhs hrightCode, (BinOp.silent_code hop).callsOut]

theorem unary_callsOut {op : UnOp} {operand : Operand} (hoperand : operand.Exact)
    (h : (unary op target operand).run σ = (.ok code, τ)) : code.callsOut = operand.calls := by
  obtain ⟨-, ⟨reg, -, operandCode, opCode, hcode, hop, rfl⟩ |
    ⟨-, res, operandCode, opCode, σ₁, σ₂, -, hcode, hop, -, rfl⟩⟩ := unary_ok h
  all_goals simp [hoperand hcode, (UnOp.silent_code hop).callsOut]

theorem callsOut_address {build : Register → Code} (hbuild : ∀ reg, (build reg).Silent)
    (h : address target build = .ok code) : code.callsOut = false := by
  obtain ⟨copyCode, hcopy, rfl⟩ := address_ok h
  simp [(hbuild _).callsOut, (Code.silent_copy hcopy).callsOut]

theorem elements_callsOut {slots : List Slot} (hoperands : ∀ operand ∈ operands, operand.Exact)
    (hlength : slots.length = operands.length) (h : (elements slots operands).run σ = (.ok code, τ)) :
    code.callsOut = operands.any Operand.calls := by
  induction operands generalizing slots σ code with
  | nil => cases slots <;> (cases h; rfl)
  | cons operand operands ih =>
    obtain ⟨hoperand, hrest⟩ := List.forall_mem_cons.mp hoperands
    cases slots with
    | nil => cases hlength
    | cons slot slots =>
      obtain ⟨elementCode, σ₁, helement, h₁⟩ := StepM.run_bind_eq_ok.mp h
      obtain ⟨restCode, σ₂, htail, h₂⟩ := StepM.run_bind_eq_ok.mp h₁
      cases h₂
      rw [Code.callsOut_append, hoperand helement, ih hrest (Nat.succ.inj hlength) htail, List.any_cons]

theorem array_callsOut {ty : Ty} (hoperands : ∀ operand ∈ operands, operand.Exact)
    (h : (array ty target operands).run σ = (.ok code, τ)) :
    code.callsOut = operands.any Operand.calls := by
  obtain ⟨elementTy, first, slots, elementsCode, addressCode, σ₁, -, hslots, helements, haddress, rfl⟩ :=
    array_ok h
  have hlength : (first :: slots).length = operands.length := by
    simpa using reserveElements_length hslots
  rw [Code.callsOut_append, elements_callsOut hoperands hlength helements,
    callsOut_address (fun _ => Code.silent_frameAddress _) haddress, Bool.or_false]

/-! ## Calls -/

theorem shield_shielding {temps : List (Reservation × Register)} (hlength : regs.length = operands.length)
    (h : (shield operands regs).run σ = (.ok (code, temps), τ)) :
    Shielding (operands.filter Operand.calls) code := by
  induction operands generalizing regs code temps σ with
  | nil =>
    simp only [shield] at h
    cases h
    exact .nil
  | cons operand operands ih =>
    cases regs with
    | nil => cases hlength
    | cons reg regs =>
      have hlength' := Nat.succ.inj hlength
      cases hcalls : operand.calls with
      | true =>
        obtain ⟨res, argCode, restCode, temps', σ₁, σ₂, hres, hcode, htail, hout⟩ :=
          shield_calls_ok hcalls h
        cases hout
        rw [List.filter_cons_of_pos hcalls]
        exact .cons (Session.reserveTemp_temporary hres) hcode (ih hlength' htail)
      | false =>
        rw [shield_quiet operands reg regs hcalls] at h
        rw [List.filter_cons_of_neg (Bool.eq_false_iff.mp hcalls)]
        exact ih hlength' h

def plain (operands : List Operand) (regs : List Register) : List (Operand × Register) :=
  (operands.zip regs).filter (!·.1.calls)

theorem direct_placing (hoperands : ∀ operand ∈ operands, operand.Exact)
    (h : (direct operands regs).run σ = (.ok code, τ)) : Placing (plain operands regs) code := by
  induction operands generalizing regs code σ with
  | nil =>
    simp only [direct] at h
    cases h
    exact .nil
  | cons operand operands ih =>
    obtain ⟨hoperand, hrest⟩ := List.forall_mem_cons.mp hoperands
    cases regs with
    | nil =>
      simp only [direct] at h
      cases h
      exact .nil
    | cons reg regs =>
      rw [plain, List.zip_cons_cons]
      cases hcalls : operand.calls with
      | true =>
        rw [direct_calls operands reg regs hcalls] at h
        rw [List.filter_cons_of_neg (by simp [hcalls])]
        exact ih hrest h
      | false =>
        obtain ⟨argCode, restCode, σ₁, hcode, htail, rfl⟩ := direct_quiet_ok hcalls h
        rw [List.filter_cons_of_pos (by simp [hcalls])]
        exact .cons hcode ((hoperand hcode).trans hcalls) (ih hrest htail)

theorem callsOut_unshield {temps : List (Reservation × Register)} (h : unshield temps = .ok code) :
    code.callsOut = false := by
  induction temps generalizing code with
  | nil =>
    cases h
    rfl
  | cons entry temps ih =>
    obtain ⟨copyCode, restCode, hcopy, hrest, rfl⟩ := unshield_cons_ok h
    simp [(Code.silent_copy hcopy).callsOut, ih hrest]

theorem arguments_staged (hoperands : ∀ operand ∈ operands, operand.Exact)
    (hlength : regs.length = operands.length) (h : (arguments operands regs).run σ = (.ok code, τ)) :
    Staged (operands.filter Operand.calls) (plain operands regs) code := by
  obtain ⟨shieldCode, temps, directCode, copyCode, σ₁, σ₂, hshield, hdirect, hcopy, -, rfl⟩ :=
    arguments_ok h
  exact .intro (shield_shielding hlength hshield) (direct_placing hoperands hdirect)
    (callsOut_unshield hcopy)

theorem callsOut_result {ty : Ty} {target : Option Reservation} (h : result ty target = .ok code) :
    code.callsOut = false := by
  cases target with
  | none =>
    cases h
    rfl
  | some target => exact (Code.silent_copy h).callsOut

theorem trapOperands_staged {number : Operand} (hnumber : number.Exact)
    (hoperands : ∀ operand ∈ operands, operand.Exact) (hlength : regs.length = operands.length)
    (h : (trapOperands number operands regs).run σ = (.ok code, τ)) :
    Staged ((number :: operands).filter Operand.calls) (plain operands regs) code := by
  rcases trapOperands_ok h with
    ⟨res, numberCode, argCode, copyCode, σ₁, σ₂, σ₃, hcalls, hres, hlower, hargCode, hcopy, -, rfl⟩ |
    ⟨argCode, numberCode, σ₁, hcalls, hargCode, hlower, rfl⟩
  · rw [List.filter_cons_of_pos hcalls]
    refine .quiet ?_ (Code.silent_copy hcopy).callsOut
    cases arguments_staged hoperands hlength hargCode with
    | intro shielding placing quiet =>
      rw [← List.append_assoc, ← List.append_assoc]
      exact .intro (.cons (Session.reserveTemp_temporary hres) hlower shielding) placing quiet
  · rw [List.filter_cons_of_neg (Bool.eq_false_iff.mp hcalls)]
    exact (arguments_staged hoperands hlength hargCode).quiet ((hnumber hlower).trans hcalls)

theorem functionCall_dispatched {callee : String} {target : Option Reservation}
    (hoperands : ∀ operand ∈ operands, operand.Exact)
    (h : (functionCall callee operands target).run σ = (.ok code, τ)) :
    ∃ regs, argRegisters operands.length = .ok regs ∧
      Dispatched (operands.filter Operand.calls) (plain operands regs) code := by
  obtain ⟨signature, regs, argCode, resultCode, f, fs, σ₁, -, -, hregs, hcode, -, hresult, -, rfl⟩ :=
    functionCall_ok h
  refine ⟨regs, hregs, ?_⟩
  have hstaged := arguments_staged hoperands (length_of_argRegisters hregs) hcode
  have hbranches : (Line.instr (.bl (σ₁.options.functionLabel callee))).mark.callsOut = true := rfl
  have hquiet : Code.callsOut (Code.restoreRegs f.liveTempRegs ++ resultCode) = false := by
    simp [callsOut_result hresult]
  have hcall := Dispatched.intro (hstaged.quiet (Code.callsOut_saveRegs f.liveTempRegs)) hbranches hquiet
  simpa [Code.ofInstrs] using hcall

theorem trap_dispatched {target : Option Reservation} (hoperands : ∀ operand ∈ operands, operand.Exact)
    (h : (trap operands target).run σ = (.ok code, τ)) :
    ∃ regs, argRegisters operands.tail.length = .ok regs ∧
      Dispatched (operands.filter Operand.calls) (plain operands.tail regs) code := by
  obtain ⟨number, args, regs, operandCode, resultCode, σ₁, rfl, hregs, hcode, hresult, -, rfl⟩ :=
    trap_ok h
  obtain ⟨hnumber, hargs⟩ := List.forall_mem_cons.mp hoperands
  refine ⟨regs, hregs, ?_⟩
  have hstaged := trapOperands_staged hnumber hargs (length_of_argRegisters hregs) hcode
  have hbranches : (Line.instr (.svc trapImm)).mark.callsOut = true := rfl
  have hcall := Dispatched.intro hstaged hbranches (callsOut_result hresult)
  simpa [Code.ofInstrs] using hcall

/-- The arguments that a call passes in the argument registers. The number of a trap is not among them. -/
def passed (callee : String) (operands : List Operand) : List Operand :=
  if callee = trapCallee then operands.tail else operands

theorem call_dispatched {callee : String} {target : Option Reservation}
    (hoperands : ∀ operand ∈ operands, operand.Exact)
    (h : (call callee operands target).run σ = (.ok code, τ)) :
    ∃ regs, argRegisters (passed callee operands).length = .ok regs ∧
      Dispatched (operands.filter Operand.calls) (plain (passed callee operands) regs) code := by
  rw [call] at h
  by_cases hcallee : callee = trapCallee
  · rw [if_pos hcallee] at h
    rw [passed, if_pos hcallee]
    exact trap_dispatched hoperands h
  · rw [if_neg hcallee] at h
    rw [passed, if_neg hcallee]
    exact functionCall_dispatched hoperands h

end Lower

/-! ## All expressions -/

namespace Expr

theorem any_operands (exprs : List Expr) : (operands exprs).any Operand.calls = anyContainsCalls exprs := by
  induction exprs with
  | nil => rfl
  | cons expr exprs ih => rw [operands, List.any_cons, ih, anyContainsCalls]

theorem operand_exact (expr : Expr) : expr.operand.Exact := by
  induction expr using Expr.induct with
  | literal value ty =>
    intro target σ code τ h
    obtain ⟨hcode, -⟩ := Lower.lift_run h
    exact (Code.silent_putConstant hcode).callsOut
  | var name ty =>
    intro target σ code τ h
    obtain ⟨slot, σ₁, -, h₁⟩ := StepM.run_bind_eq_ok.mp h
    obtain ⟨hcode, -⟩ := Lower.lift_run h₁
    exact (Code.silent_copy hcode).callsOut
  | deref pointer ty ih => exact Lower.unary_callsOut ih
  | call callee args ty ih =>
    intro target σ code τ h
    simp only [operand, lower] at h
    obtain ⟨regs, -, hdispatched⟩ := Lower.call_dispatched (forall_operands.mpr ih) h
    exact hdispatched.callsOut
  | binary op lhs rhs ty ihl ihr => exact Lower.binary_callsOut ihl ihr
  | unary op operand ty ih =>
    intro target σ code τ h
    simp only [Expr.operand, lower] at h
    split at h
    · -- An address is taken of a variable only, which contains no call.
      obtain ⟨name, ty', slot, rfl, -, haddress⟩ := Lower.addressOf_ok h
      exact Lower.callsOut_address (fun _ => Code.silent_frameAddress _) haddress
    · have hcalls := Lower.unary_callsOut ih h
      exact hcalls
  | array elements ty ih =>
    intro target σ code τ h
    exact (Lower.array_callsOut (forall_operands.mpr ih) h).trans (any_operands elements)
  | str text ty =>
    intro target σ code τ h
    obtain ⟨label, -, haddress⟩ := Lower.string_ok h
    exact Lower.callsOut_address (fun _ => Code.silent_labelAddress _) haddress
  | empty ty =>
    intro target σ code τ h
    cases h
    rfl

end Expr

end ArmBackend
