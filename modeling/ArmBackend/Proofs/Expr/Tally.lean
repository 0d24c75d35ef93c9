import ArmBackend.Proofs.Expr.Inversion
import ArmBackend.Proofs.Expr.Shape
import ArmBackend.Proofs.Machine.Tally

/-!
# What the code of an expression adds to the statistics

Lowering an expression records each call and each trap of its code, and the registers that are saved for its
calls.
-/

namespace ArmBackend

open Session (onFrame_ok)

/-- The statistics `t` are `s` and so many functions, calls, saved registers and labels more. -/
structure Stats.Gains (functions calls saves labels : Nat) (s t : Stats) : Prop where
  functions : t.functions = s.functions + functions
  calls : t.calls = s.calls + calls
  saves : t.saves = s.saves + saves
  labels : t.labels = s.labels + labels

namespace Stats.Gains

variable {functions functions' calls calls' saves saves' labels labels' : Nat} {s t u : Stats}

theorem refl (s : Stats) : Gains 0 0 0 0 s s := ⟨rfl, rfl, rfl, rfl⟩

theorem trans (h : Gains functions calls saves labels s t) (h' : Gains functions' calls' saves' labels' t u) :
    Gains (functions + functions') (calls + calls') (saves + saves') (labels + labels') s u where
  functions := by rw [h'.functions, h.functions, Nat.add_assoc]
  calls := by rw [h'.calls, h.calls, Nat.add_assoc]
  saves := by rw [h'.saves, h.saves, Nat.add_assoc]
  labels := by rw [h'.labels, h.labels, Nat.add_assoc]

end Stats.Gains

namespace Session

variable {a b code : Code} {σ τ υ : Session}

def Tallies (code : Code) (σ τ : Session) : Prop :=
  ∃ calls saves labels, code.Tallied calls saves labels ∧ σ.stats.Gains 0 calls saves labels τ.stats

namespace Tallies

theorem of_silent (h : code.Silent) (hstats : τ.stats = σ.stats) : Tallies code σ τ :=
  ⟨0, 0, 0, .of_silent h, hstats ▸ .refl _⟩

theorem nil (hstats : τ.stats = σ.stats) : Tallies [] σ τ := of_silent Code.silent_nil hstats

theorem append (ha : Tallies a σ τ) (hb : Tallies b τ υ) : Tallies (a ++ b) σ υ :=
  have ⟨_, _, _, hcode, hgains⟩ := ha
  have ⟨_, _, _, hcode', hgains'⟩ := hb
  ⟨_, _, _, hcode.append hcode', hgains.trans hgains'⟩

theorem append_silent (h : Tallies code σ τ) (hsilent : b.Silent) : Tallies (code ++ b) σ τ :=
  h.append (of_silent hsilent rfl)

theorem after (hstats : τ.stats = σ.stats) (h : Tallies code τ υ) : Tallies code σ υ := by
  rwa [Tallies, ← hstats]

theorem before (h : Tallies code σ τ) (hstats : υ.stats = τ.stats) : Tallies code σ υ := by
  rwa [Tallies, hstats]

end Tallies

theorem onFrame_stats {α : Type} {operation : FrameM α} {a : α}
    (h : (onFrame operation).run σ = (.ok a, τ)) : τ.stats = σ.stats := by
  obtain ⟨-, _, _, _, -, -, rfl⟩ := onFrame_ok h
  rfl

theorem intern_stats {text : String} {label : Label} (h : (intern text).run σ = (.ok label, τ)) :
    τ.stats = σ.stats := by
  cases h
  rfl

end Session

open Session (Tallies onFrame_stats)

variable {σ τ : Session} {code : Code} {target : Reservation}

def Operand.Tallies (operand : Operand) : Prop :=
  ∀ {target σ code τ}, (operand.lower target).run σ = (.ok code, τ) → Session.Tallies code σ τ

/-! ## Forms of expressions -/

namespace Lower

variable {operands : List Operand} {regs : List Register}

theorem binary_tallies {op : BinOp} {ty : Ty} {lhs rhs : Operand} (hlhs : lhs.Tallies) (hrhs : rhs.Tallies)
    (h : (binary op ty target lhs rhs).run σ = (.ok code, τ)) : Tallies code σ τ := by
  obtain ⟨left, leftCode, right, rightCode, opCode, σ₁, σ₂, σ₃, σ₄, σ₅, hleft, hleftCode, hright,
    hrightCode, hop, hrelease, hrelease', -, rfl⟩ := binary_ok h
  have hoperands := ((hlhs hleftCode).after (onFrame_stats hleft)).append
    ((hrhs hrightCode).after (onFrame_stats hright))
  have hall := (hoperands.before (onFrame_stats hrelease)).before (onFrame_stats hrelease')
  exact hall.append_silent (BinOp.silent_code hop)

theorem unary_tallies {op : UnOp} {operand : Operand} (hoperand : operand.Tallies)
    (h : (unary op target operand).run σ = (.ok code, τ)) : Tallies code σ τ := by
  obtain ⟨-, ⟨reg, -, operandCode, opCode, hcode, hop, rfl⟩ |
    ⟨-, res, operandCode, opCode, σ₁, σ₂, hres, hcode, hop, hrelease, rfl⟩⟩ := unary_ok h
  · exact (hoperand hcode).append_silent (UnOp.silent_code hop)
  · have hall := ((hoperand hcode).after (onFrame_stats hres)).before (onFrame_stats hrelease)
    exact hall.append_silent (UnOp.silent_code hop)

theorem silent_address {build : Register → Code} (hbuild : ∀ reg, (build reg).Silent)
    (h : address target build = .ok code) : code.Silent := by
  obtain ⟨copyCode, hcopy, rfl⟩ := address_ok h
  exact Code.silent_append.mpr ⟨hbuild _, Code.silent_copy hcopy⟩

theorem addressOf_tallies {operand : Expr} (h : (addressOf target operand).run σ = (.ok code, τ)) :
    Tallies code σ τ := by
  obtain ⟨name, ty, slot, rfl, hslot, haddress⟩ := addressOf_ok h
  exact .of_silent (silent_address (fun _ => Code.silent_frameAddress _) haddress) (onFrame_stats hslot)

theorem string_tallies {text : String} (h : (string target text).run σ = (.ok code, τ)) :
    Tallies code σ τ := by
  obtain ⟨label, hlabel, haddress⟩ := string_ok h
  exact .of_silent (silent_address (fun _ => Code.silent_labelAddress _) haddress) (Session.intern_stats hlabel)

/-! ### Arrays -/

theorem reserveElements_stats {ty : Ty} {count : Nat} {slots slots' : List Slot}
    (h : (reserveElements ty count slots).run σ = (.ok slots', τ)) : τ.stats = σ.stats := by
  induction count generalizing slots σ with
  | zero =>
    cases h
    rfl
  | succ count ih =>
    obtain ⟨slot, σ₁, hslot, h₁⟩ := StepM.run_bind_eq_ok.mp h
    exact (ih h₁).trans (onFrame_stats hslot)

theorem elements_tallies {slots : List Slot} (hoperands : ∀ operand ∈ operands, operand.Tallies)
    (h : (elements slots operands).run σ = (.ok code, τ)) : Tallies code σ τ := by
  induction operands generalizing slots σ code with
  | nil =>
    cases slots <;> (cases h; exact .nil rfl)
  | cons operand operands ih =>
    obtain ⟨hoperand, hrest⟩ := List.forall_mem_cons.mp hoperands
    cases slots with
    | nil =>
      cases h
      exact .nil rfl
    | cons slot slots =>
      obtain ⟨elementCode, σ₁, helement, h₁⟩ := StepM.run_bind_eq_ok.mp h
      obtain ⟨restCode, σ₂, htail, h₂⟩ := StepM.run_bind_eq_ok.mp h₁
      cases h₂
      exact (hoperand helement).append (ih hrest htail)

/-! ### Calls -/

theorem shield_tallies {shielded : List (Reservation × Register)}
    (hoperands : ∀ operand ∈ operands, operand.Tallies)
    (h : (shield operands regs).run σ = (.ok (code, shielded), τ)) : Tallies code σ τ := by
  induction operands generalizing regs code shielded σ with
  | nil =>
    simp only [shield] at h
    cases h
    exact .nil rfl
  | cons operand operands ih =>
    obtain ⟨hoperand, hrest⟩ := List.forall_mem_cons.mp hoperands
    cases regs with
    | nil =>
      simp only [shield] at h
      cases h
      exact .nil rfl
    | cons reg regs =>
      cases hcalls : operand.calls with
      | true =>
        obtain ⟨res, argCode, restCode, shielded', σ₁, σ₂, hres, hcode, htail, hout⟩ := shield_calls_ok hcalls h
        cases hout
        exact ((hoperand hcode).after (onFrame_stats hres)).append (ih hrest htail)
      | false =>
        rw [shield_quiet operands reg regs hcalls] at h
        exact ih hrest h

theorem direct_tallies (hoperands : ∀ operand ∈ operands, operand.Tallies)
    (h : (direct operands regs).run σ = (.ok code, τ)) : Tallies code σ τ := by
  induction operands generalizing regs code σ with
  | nil =>
    simp only [direct] at h
    cases h
    exact .nil rfl
  | cons operand operands ih =>
    obtain ⟨hoperand, hrest⟩ := List.forall_mem_cons.mp hoperands
    cases regs with
    | nil =>
      simp only [direct] at h
      cases h
      exact .nil rfl
    | cons reg regs =>
      cases hcalls : operand.calls with
      | true =>
        rw [direct_calls operands reg regs hcalls] at h
        exact ih hrest h
      | false =>
        obtain ⟨argCode, restCode, σ₁, hcode, htail, rfl⟩ := direct_quiet_ok hcalls h
        exact (hoperand hcode).append (ih hrest htail)

theorem silent_unshield {shielded : List (Reservation × Register)} (h : unshield shielded = .ok code) :
    code.Silent := by
  induction shielded generalizing code with
  | nil =>
    cases h
    exact Code.silent_nil
  | cons entry shielded ih =>
    obtain ⟨copyCode, restCode, hcopy, hrest, rfl⟩ := unshield_cons_ok h
    exact Code.silent_append.mpr ⟨Code.silent_copy hcopy, ih hrest⟩

theorem releaseTemps_stats {count : Nat} (h : (releaseTemps count).run σ = (.ok (), τ)) : τ.stats = σ.stats := by
  induction count generalizing σ with
  | zero =>
    cases h
    rfl
  | succ count ih =>
    obtain ⟨_, σ₁, hrelease, h₁⟩ := StepM.run_bind_eq_ok.mp h
    exact (ih h₁).trans (onFrame_stats hrelease)

theorem arguments_tallies (hoperands : ∀ operand ∈ operands, operand.Tallies)
    (h : (arguments operands regs).run σ = (.ok code, τ)) : Tallies code σ τ := by
  obtain ⟨shieldCode, shielded, directCode, copyCode, σ₁, σ₂, hshield, hdirect, hcopy, hrelease, rfl⟩ :=
    arguments_ok h
  have hlowered := (shield_tallies hoperands hshield).append (direct_tallies hoperands hdirect)
  exact (hlowered.before (releaseTemps_stats hrelease)).append_silent (silent_unshield hcopy)

theorem silent_result {ty : Ty} {target : Option Reservation} (h : result ty target = .ok code) : code.Silent := by
  cases target with
  | none =>
    cases h
    exact Code.silent_nil
  | some target => exact Code.silent_copy h

theorem functionCall_tallies {callee : String} {target : Option Reservation}
    (hoperands : ∀ operand ∈ operands, operand.Tallies)
    (h : (functionCall callee operands target).run σ = (.ok code, τ)) : Tallies code σ τ := by
  obtain ⟨signature, regs, argCode, resultCode, f, fs, σ₁, -, -, -, hcode, -, hresult, rfl, rfl⟩ :=
    functionCall_ok h
  have hmark : (Session.markUsed callee σ).stats = σ.stats := by
    obtain ⟨usedBuiltins, hmark⟩ := Session.markUsed_eq callee σ
    rw [hmark]
  have hargs := (arguments_tallies hoperands hcode).after hmark
  have hcall : Tallies (Code.saveRegs f.liveTempRegs ++
        Code.ofInstrs [.bl (σ₁.options.functionLabel callee)] ++ Code.restoreRegs f.liveTempRegs)
      σ₁ (Session.recordSaves f.liveTempRegs.length (Session.recordCall σ₁)) :=
    ⟨1, f.liveTempRegs.length, 0, .call _ _, ⟨rfl, rfl, rfl, rfl⟩⟩
  simpa only [List.append_assoc] using (hargs.append hcall).append_silent (silent_result hresult)

theorem trapOperands_tallies {number : Operand} (hnumber : number.Tallies)
    (hoperands : ∀ operand ∈ operands, operand.Tallies)
    (h : (trapOperands number operands regs).run σ = (.ok code, τ)) : Tallies code σ τ := by
  rcases trapOperands_ok h with
    ⟨res, numberCode, argCode, copyCode, σ₁, σ₂, σ₃, -, hres, hlower, hargCode, hcopy, hrelease, rfl⟩ |
    ⟨argCode, numberCode, σ₁, -, hargCode, hlower, rfl⟩
  · have hlowered := ((hnumber hlower).after (onFrame_stats hres)).append (arguments_tallies hoperands hargCode)
    exact (hlowered.before (onFrame_stats hrelease)).append_silent (Code.silent_copy hcopy)
  · exact (arguments_tallies hoperands hargCode).append (hnumber hlower)

theorem trap_tallies {target : Option Reservation} (hoperands : ∀ operand ∈ operands, operand.Tallies)
    (h : (trap operands target).run σ = (.ok code, τ)) : Tallies code σ τ := by
  obtain ⟨number, args, regs, operandCode, resultCode, σ₁, rfl, -, hcode, hresult, rfl, rfl⟩ := trap_ok h
  obtain ⟨hnumber, hargs⟩ := List.forall_mem_cons.mp hoperands
  have htrap : Tallies (Code.ofInstrs [.svc trapImm]) σ₁ (Session.recordCall σ₁) :=
    ⟨1, 0, 0, .trap _, ⟨rfl, rfl, rfl, rfl⟩⟩
  exact ((trapOperands_tallies hnumber hargs hcode).append htrap).append_silent (silent_result hresult)

theorem call_tallies {callee : String} {target : Option Reservation}
    (hoperands : ∀ operand ∈ operands, operand.Tallies)
    (h : (call callee operands target).run σ = (.ok code, τ)) : Tallies code σ τ := by
  rw [call] at h
  split at h
  · exact trap_tallies hoperands h
  · exact functionCall_tallies hoperands h

end Lower

/-! ## All expressions -/

theorem Expr.operand_tallies (expr : Expr) : expr.operand.Tallies := by
  induction expr using Expr.induct with
  | literal value ty =>
    intro target σ code τ h
    obtain ⟨hcode, rfl⟩ := Lower.lift_run h
    exact .of_silent (Code.silent_putConstant hcode) rfl
  | var name ty =>
    intro target σ code τ h
    obtain ⟨slot, σ₁, hslot, h₁⟩ := StepM.run_bind_eq_ok.mp h
    obtain ⟨hcode, rfl⟩ := Lower.lift_run h₁
    exact .of_silent (Code.silent_copy hcode) (onFrame_stats hslot)
  | deref pointer ty ih => exact Lower.unary_tallies ih
  | call callee args ty ih =>
    intro target σ code τ h
    simp only [Expr.operand, Expr.lower] at h
    exact Lower.call_tallies (Expr.forall_operands.mpr ih) h
  | binary op lhs rhs ty ihl ihr => exact Lower.binary_tallies ihl ihr
  | unary op operand ty ih =>
    intro target σ code τ h
    simp only [Expr.operand, Expr.lower] at h
    split at h
    · exact Lower.addressOf_tallies h
    · exact Lower.unary_tallies ih h
  | array elements ty ih =>
    intro target σ code τ h
    obtain ⟨elementTy, first, slots, elementsCode, addressCode, σ₁, -, hslots, hcode, haddress, rfl⟩ :=
      Lower.array_ok h
    have helements := Lower.elements_tallies (Expr.forall_operands.mpr ih) hcode
    exact (helements.after (Lower.reserveElements_stats hslots)).append_silent
      (Lower.silent_address (fun _ => Code.silent_frameAddress _) haddress)
  | str text ty => exact Lower.string_tallies
  | empty ty =>
    intro target σ code τ h
    cases h
    exact .nil rfl

end ArmBackend
