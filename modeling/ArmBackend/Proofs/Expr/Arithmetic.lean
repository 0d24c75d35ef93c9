import ArmBackend.Proofs.Expr.Accepted
import ArmBackend.Proofs.Expr.Isolated
import ArmBackend.Proofs.Machine.Straight

/-!
# Expressions of literals

Expressions that operators make of literals are lowered into any register and any slot. A slot holds
their value, and so does a register other than x9. There the right operand of the outermost operator
waits, and the left operand overwrites it.
-/

namespace ArmBackend

open Session (onFrame Advances onFrame_ok)
open ArmBackend.Frame (Rests)

/-! ## Literals and operators -/

/-- What the checked constructors make of literals. -/
inductive Expr.Arithmetic : Expr → Prop
  | literal (value : Literal) : Arithmetic (Build.literal value)
  | binary {op : BinOp} {lhs rhs expr : Expr} (hlhs : Arithmetic lhs) (hrhs : Arithmetic rhs)
      (h : Build.binary op lhs rhs = .ok expr) : Arithmetic expr
  | unary {op : UnOp} {operand expr : Expr} (hoperand : Arithmetic operand)
      (h : Build.unary op operand = .ok expr) : Arithmetic expr

namespace Ty

theorem isInteger_iff {ty : Ty} : ty.isInteger = true ↔ ty = .int ∨ ty = .char := by
  cases ty <;> simp [isInteger]

theorem pointee?_eq_none {ty : Ty} (h : ty.isInteger = true) : ty.pointee? = none := by
  rcases isInteger_iff.mp h with rfl | rfl <;> rfl

theorem size_pos_of_isInteger {ty : Ty} (h : ty.isInteger = true) : 0 < ty.size := by
  rcases isInteger_iff.mp h with rfl | rfl <;> decide

end Ty

theorem BinOp.isInteger_result (op : BinOp) {lhs rhs : Ty} (hlhs : lhs.isInteger = true)
    (hrhs : rhs.isInteger = true) :
    op.accepts lhs rhs = true ∧ (op.result lhs rhs).isInteger = true := by
  rcases Ty.isInteger_iff.mp hlhs with rfl | rfl <;> rcases Ty.isInteger_iff.mp hrhs with rfl | rfl <;>
    cases op <;> exact ⟨rfl, rfl⟩

theorem UnOp.isInteger_result {op : UnOp} {operand : Ty} (hoperand : operand.isInteger = true)
    (hderef : op ≠ .deref) (haddr : op ≠ .addrOf) :
    op.accepts operand = true ∧ (op.result operand).isInteger = true := by
  rcases Ty.isInteger_iff.mp hoperand with rfl | rfl <;> cases op <;> first
    | exact ⟨rfl, rfl⟩
    | exact absurd rfl hderef
    | exact absurd rfl haddr

namespace Expr

theorem scaledOperands_of_isInteger (op : BinOp) {lhs rhs : Expr} (hlhs : lhs.ty.isInteger = true)
    (hrhs : rhs.ty.isInteger = true) : Build.scaledOperands op lhs rhs = (lhs, rhs) := by
  rw [Build.scaledOperands, Ty.pointee?_eq_none hlhs, Ty.pointee?_eq_none hrhs]
  split <;> rfl

namespace Arithmetic

theorem isVar_eq_false {expr : Expr} (h : Arithmetic expr) : expr.isVar = false := by
  cases h with
  | literal value => rfl
  | binary hlhs hrhs h =>
    obtain ⟨-, rfl⟩ := Build.binary_ok h
    rfl
  | unary hoperand h =>
    obtain ⟨-, rfl⟩ := Build.unary_ok h
    rfl

theorem unary_ne {op : UnOp} {operand expr : Expr} (hoperand : Arithmetic operand)
    (hinteger : operand.ty.isInteger = true) (h : Build.unary op operand = .ok expr) :
    op ≠ .deref ∧ op ≠ .addrOf := by
  refine ⟨?_, fun haddr => ?_⟩
  · rintro rfl
    obtain ⟨haccepts, -⟩ := Build.unary_ok h
    rcases Ty.isInteger_iff.mp hinteger with hty | hty <;> rw [hty] at haccepts <;> cases haccepts
  · have hvar := Build.unary_isVar h haddr
    rw [hoperand.isVar_eq_false] at hvar
    cases hvar

theorem isInteger {expr : Expr} (h : Arithmetic expr) : expr.ty.isInteger = true := by
  induction h with
  | literal value => cases value <;> rfl
  | @binary op lhs rhs expr hlhs hrhs h ihl ihr =>
    obtain ⟨-, rfl⟩ := Build.binary_ok h
    exact (op.isInteger_result ihl ihr).2
  | unary hoperand h ih =>
    obtain ⟨hderef, haddr⟩ := hoperand.unary_ne ih h
    obtain ⟨-, rfl⟩ := Build.unary_ok h
    exact (UnOp.isInteger_result ih hderef haddr).2

@[elab_as_elim]
theorem induct {P : ∀ expr, Arithmetic expr → Prop}
    (literal : ∀ value h, P (.literal value value.ty) h)
    (binary : ∀ op lhs rhs (hlhs : Arithmetic lhs) (hrhs : Arithmetic rhs) h, P lhs hlhs → P rhs hrhs →
      P (.binary op lhs rhs (op.result lhs.ty rhs.ty)) h)
    (unary : ∀ op operand (hoperand : Arithmetic operand) h, op ≠ .deref → op ≠ .addrOf →
      P operand hoperand → P (.unary op operand (op.result operand.ty)) h)
    {expr : Expr} (h : Arithmetic expr) : P expr h := by
  induction h with
  | literal value => exact literal value _
  | @binary op lhs rhs expr hlhs hrhs h ihl ihr =>
    obtain ⟨-, hexpr⟩ := Build.binary_ok h
    have hoperands := scaledOperands_of_isInteger op hlhs.isInteger hrhs.isInteger
    rw [hoperands] at hexpr
    subst hexpr
    exact binary op lhs rhs hlhs hrhs _ ihl ihr
  | @unary op operand expr hoperand h ih =>
    obtain ⟨hderef, haddr⟩ := hoperand.unary_ne hoperand.isInteger h
    obtain ⟨-, rfl⟩ := Build.unary_ok h
    exact unary op operand hoperand _ hderef haddr ih

end Arithmetic

/-! ## Values -/

def worth : Expr → Word
  | .literal value _ => value.bits
  | .binary op lhs rhs ty => ty.width.low (op.apply lhs.worth rhs.worth)
  | .unary op operand _ => op.apply operand.ty operand.worth
  | _ => 0

/-- The same where the outermost binary operator takes its left operand twice. -/
def doubled : Expr → Word
  | .binary op lhs _ ty => ty.width.low (op.apply lhs.worth lhs.worth)
  | .unary op operand _ => op.apply operand.ty operand.doubled
  | expr => expr.worth

def depth : Expr → Nat
  | .binary _ lhs rhs _ => max lhs.depth rhs.depth + 1
  | .unary _ operand _ => operand.depth + 1
  | _ => 0

namespace Arithmetic

theorem eval {expr : Expr} (h : Arithmetic expr) (ctx : Context) :
    expr.eval ctx = some expr.worth := by
  induction h using Arithmetic.induct with
  | literal value => rfl
  | binary op lhs rhs hlhs hrhs _ ihl ihr =>
    simp only [Expr.eval, ihl, ihr, worth, Option.bind_some, Option.map_some]
  | unary op operand hoperand _ hderef haddr ih =>
    cases op with
    | deref => exact absurd rfl hderef
    | addrOf => exact absurd rfl haddr
    | _ => simp only [Expr.eval, ih, worth, Option.map_some]

theorem arrayFree {expr : Expr} (h : Arithmetic expr) : expr.arrayFree = true := by
  induction h using Arithmetic.induct with
  | literal value => rfl
  | binary op lhs rhs hlhs hrhs _ ihl ihr => exact Bool.and_eq_true_iff.mpr ⟨ihl, ihr⟩
  | unary op operand hoperand _ hderef haddr ih => exact ih

theorem containsCalls {expr : Expr} (h : Arithmetic expr) : expr.containsCalls = false := by
  induction h using Arithmetic.induct with
  | literal value => rfl
  | binary op lhs rhs hlhs hrhs _ ihl ihr => exact Bool.or_eq_false_iff.mpr ⟨ihl, ihr⟩
  | unary op operand hoperand _ hderef haddr ih => exact ih

theorem wellTyped {expr : Expr} (h : Arithmetic expr) : expr.WellTyped := by
  induction h using Arithmetic.induct with
  | literal value => exact rfl
  | binary op lhs rhs hlhs hrhs _ ihl ihr => exact ⟨ihl, ihr, rfl⟩
  | unary op operand hoperand _ hderef haddr ih => exact ⟨ih, rfl⟩

theorem isWorth {expr : Expr} (h : Arithmetic expr) (S : Setting) : S.Worth expr expr.worth :=
  ⟨h.eval S.ctx, h.arrayFree, h.wellTyped, Setting.evaluates expr h.arrayFree h.wellTyped (h.eval S.ctx)⟩

end Arithmetic

end Expr

/-! ## Lowering -/

theorem Ty.size_le (ty : Ty) : ty.size ≤ 8 := by cases ty <;> simp [size, wordSize]

theorem Frame.reserveTemp_within {ty : Ty} {f g : Frame} {res : Reservation}
    (h : (reserveTemp ty).run f = (.ok res, g)) :
    g.position ≤ f.position + 16 ∧ g.highWater ≤ max f.highWater (f.position + 16) := by
  obtain ⟨hsize, ⟨reg, -, -, -, rfl⟩ | ⟨-, rfl⟩⟩ := reserveTemp_ok h
  · exact ⟨Nat.le_add_right _ _, Nat.le_max_left _ _⟩
  · have hpadding := paddingTo_lt f.position hsize
    have hle := ty.size_le
    simp only [withSlot, slotSize]
    omega

/-- Whether the expression is lowered into every target, with at most `n` bytes for temporaries. -/
def Expr.LowersWithin (n : Nat) (expr : Expr) : Prop :=
  ∀ ⦃target σ f fs⦄, target.isAssigned = true → σ.frames = f :: fs → f.Valid →
    ∃ code τ g, (expr.lower target).run σ = (.ok code, τ) ∧ τ.frames = g :: fs ∧ Rests f g ∧
      g.highWater ≤ max f.highWater (f.position + n)

section

variable {σ : Session} {f f₁ f₂ : Frame} {fs : List Frame} {ty : Ty} {res : Reservation}

theorem Expr.LowersWithin.held {n : Nat} {expr : Expr} (h : expr.LowersWithin n) (hsize : 0 < ty.size)
    (hf : σ.frames = f :: fs) (hvalid : f.Valid) :
    ∃ res code σ₁ τ f₁ g, (onFrame (Frame.reserveTemp ty)).run σ = (.ok res, σ₁) ∧
      (expr.lower res).run σ₁ = (.ok code, τ) ∧ τ.frames = g :: fs ∧ g.Valid ∧
      (Frame.reserveTemp ty).run f = (.ok res, f₁) ∧ Rests f₁ g ∧ g.position ≤ f.position + 16 ∧
      g.highWater ≤ max f.highWater (f.position + (n + 16)) := by
  obtain ⟨res, f₁, hrun⟩ := (Frame.reserveTemp_succeeds (f := f)).mpr hsize
  obtain ⟨hposition, hhigh⟩ := Frame.reserveTemp_within hrun
  obtain ⟨hassigned, -⟩ := Frame.reserveTemp_assigned hrun
  obtain ⟨code, τ, g, hcode, hg, hrest, hpeak⟩ :=
    h hassigned (σ := { σ with frames := f₁ :: fs }) rfl (hvalid.reserveTemp hrun)
  have hposition' := hrest.position
  exact ⟨res, code, _, τ, f₁, g, Session.onFrame_run_cons hf hrun, hcode, hg,
    (hvalid.reserveTemp hrun).of_rests hrest, hrun, hrest, by omega, by omega⟩

theorem Session.releaseTemp_run (hf : σ.frames = f₂ :: fs) (hvalid : f₂.Valid)
    (hrun : (Frame.reserveTemp ty).run f = (.ok res, f₁)) (hrest : Rests f₁ f₂) :
    ∃ τ g, (onFrame Frame.releaseTemp).run σ = (.ok (), τ) ∧ τ.frames = g :: fs ∧ Rests f g ∧
      g.highWater = f₂.highWater := by
  have hne : f₂.temporaries ≠ [] := hrest.temporaries ▸ Frame.reserveTemp_ne_nil hrun
  obtain ⟨_, g, hrelease⟩ := hvalid.releaseTemp_succeeds hne
  refine ⟨_, g, onFrame_run_cons hf hrelease, rfl, Frame.reserveTemp_releaseTemp hrun hrest hrelease, ?_⟩
  obtain ⟨_, _, -, ⟨_, -, rfl⟩ | ⟨_, _, -, -, rfl⟩⟩ := Frame.releaseTemp_ok hrelease <;> rfl

end

namespace Expr

theorem lowersWithin_literal (value : Literal) (ty : Ty) : (Expr.literal value ty).LowersWithin 0 := by
  intro target σ f fs htarget hf hvalid
  obtain ⟨code, hcode⟩ := Code.putConstant_isOk htarget value.bits
  exact ⟨code, σ, f, by rw [Expr.lower, StepM.run_monadLift, hcode], hf, .refl f, Nat.le_max_left _ _⟩

theorem LowersWithin.unary {op : UnOp} {operand : Expr} {n : Nat} {ty : Ty} (h : operand.LowersWithin n)
    (haccepts : op.accepts operand.ty = true) (haddr : op ≠ .addrOf) :
    (Expr.unary op operand ty).LowersWithin (n + 16) := by
  intro target σ f fs htarget hf hvalid
  have hcheck : Check.unary op operand.ty = .ok () := Check.unary_eq_ok.mpr haccepts
  rw [Expr.lower, if_neg haddr]
  cases hreg : target.register? with
  | some reg =>
    obtain ⟨code, τ, g, hcode, hg, hrest, hpeak⟩ :=
      h (Reservation.isAssigned_ofReg operand.ty reg) hf hvalid
    obtain ⟨opCode, hop⟩ : ∃ opCode, op.code target (.ofReg operand.ty reg) = .ok opCode :=
      UnOp.code_isOk htarget (Reservation.isAssigned_ofReg operand.ty reg) haccepts haddr
    refine ⟨code ++ opCode, τ, g, ?_, hg, hrest, by omega⟩
    simp only [Lower.unary, hreg, StepM.run_bind, StepM.run_monadLift, hcheck, hcode, hop, StepM.run_pure]
  | none =>
    have hsize := Ty.storable_iff.mp (UnOp.storable_of_accepts haccepts).1
    obtain ⟨res, code, σ₁, σ₂, f₁, f₂, hres, hcode, hf₂, hvalid₂, hrun, hrest, -, hpeak⟩ :=
      h.held hsize hf hvalid
    obtain ⟨hassigned, hty⟩ := Frame.reserveTemp_assigned hrun
    obtain ⟨opCode, hop⟩ : ∃ opCode, op.code target res = .ok opCode :=
      UnOp.code_isOk htarget hassigned (hty ▸ haccepts) haddr
    obtain ⟨τ, g, hrelease, hg, hrests, hhigh⟩ := Session.releaseTemp_run hf₂ hvalid₂ hrun hrest
    refine ⟨code ++ opCode, τ, g, ?_, hg, hrests, by omega⟩
    simp only [Lower.unary, hreg, StepM.run_bind, StepM.run_monadLift, hcheck, hres, hcode, hop, hrelease,
      StepM.run_pure]

theorem LowersWithin.binary {op : BinOp} {lhs rhs : Expr} {n : Nat} {ty : Ty} (hl : lhs.LowersWithin n)
    (hr : rhs.LowersWithin n) (haccepts : op.accepts lhs.ty rhs.ty = true) (hsize : 0 < ty.size) :
    (Expr.binary op lhs rhs ty).LowersWithin (n + 32) := by
  intro target σ f fs htarget hf hvalid
  have hcheck : Check.binary op lhs.ty rhs.ty = .ok () := Check.binary_eq_ok.mpr haccepts
  have hrhsSize := Ty.storable_iff.mp (BinOp.storable_of_accepts haccepts).2.1
  obtain ⟨left, leftCode, σ₁, σ₂, f₁, f₂, hleft, hleftCode, hf₂, hvalid₂, hrun₁, hrest₂, hposition, hpeak₂⟩ :=
    hl.held hsize hf hvalid
  obtain ⟨right, rightCode, σ₃, σ₄, f₃, f₄, hright, hrightCode, hf₄, hvalid₄, hrun₃, hrest₄, -, hpeak₄⟩ :=
    hr.held hrhsSize hf₂ hvalid₂
  obtain ⟨opCode, hop⟩ := op.code_isOk htarget (Frame.reserveTemp_assigned hrun₁).1
    (Frame.reserveTemp_assigned hrun₃).1
  obtain ⟨σ₅, f₅, hrelease, hf₅, hrest₅, hhigh₅⟩ := Session.releaseTemp_run hf₄ hvalid₄ hrun₃ hrest₄
  obtain ⟨τ, g, hrelease', hg, hrests, hhigh⟩ :=
    Session.releaseTemp_run hf₅ (hvalid₂.of_rests hrest₅) hrun₁ (hrest₂.trans hrest₅)
  refine ⟨leftCode ++ rightCode ++ opCode, τ, g, ?_, hg, hrests, by omega⟩
  simp only [Expr.lower, Lower.binary, StepM.run_bind, StepM.run_monadLift, hcheck, hleft, hleftCode, hright,
    hrightCode, hop, hrelease, hrelease', StepM.run_pure]

theorem LowersWithin.mono {expr : Expr} {n m : Nat} (h : expr.LowersWithin n) (hle : n ≤ m) :
    expr.LowersWithin m := by
  intro target σ f fs htarget hf hvalid
  obtain ⟨code, τ, g, hcode, hg, hrest, hpeak⟩ := h htarget hf hvalid
  exact ⟨code, τ, g, hcode, hg, hrest, by omega⟩

theorem Arithmetic.lowersWithin {expr : Expr} (h : Arithmetic expr) :
    expr.LowersWithin (32 * expr.depth) := by
  induction h using Arithmetic.induct with
  | literal value => exact lowersWithin_literal value _
  | binary op lhs rhs hlhs hrhs _ ihl ihr =>
    obtain ⟨haccepts, hinteger⟩ := op.isInteger_result hlhs.isInteger hrhs.isInteger
    have hl : lhs.LowersWithin (32 * max lhs.depth rhs.depth) := ihl.mono (by omega)
    have hr : rhs.LowersWithin (32 * max lhs.depth rhs.depth) := ihr.mono (by omega)
    exact hl.binary hr haccepts (Ty.size_pos_of_isInteger hinteger)
  | unary op operand hoperand _ hderef haddr ih =>
    obtain ⟨haccepts, -⟩ := UnOp.isInteger_result hoperand.isInteger hderef haddr
    exact (ih.unary haccepts haddr).mono (by rw [depth]; omega)

end Expr

/-! ## Execution -/

theorem Frame.reserveTemp_first {ty : Ty} {f g : Frame} {res : Reservation} {reg : Register}
    (h : (reserveTemp ty).run f = (.ok res, g))
    (hfree : f.liveRegs.firstFree? Register.tempBank = some reg) :
    res = .ofReg ty reg ∧ g.liveRegs = f.liveRegs.insert reg := by
  obtain ⟨hsize, -⟩ := reserveTemp_ok h
  simp only [reserveTemp, Ty.storable_iff.mpr hsize, StepM.run_bind, StepM.run_get, if_true, hfree] at h
  cases h
  exact ⟨rfl, rfl⟩

def Setting.lone (τ : Session) (f : Frame) (symbol : Label → Word) (s : State) {high : Nat}
    (hlt : high < 2 ^ 64) : Setting where
  world := Code.alone symbol
  ctx := f.context τ.data high symbol s
  label := τ.options.functionLabel
  room := 0
  extent := high
  bound := high
  typed := Frame.context_typed
  serves := nofun
  extent_le := Nat.le_refl _
  bound_lt := hlt

namespace Setting

variable {τ : Session} {f g : Frame} {gs : List Frame} {symbol : Label → Word} {s : State} {high : Nat}

theorem lone_after {hlt : high < 2 ^ 64} (hg : τ.frames = g :: gs) (hpeak : g.highWater ≤ high) :
    (lone τ f symbol s hlt).After τ where
  peak := by
    intro k ks hk
    cases hg.symm.trans hk
    exact hpeak
  texts := Frame.context_texts _ rfl
  label := rfl

theorem lone_before {hlt : high < 2 ^ 64} (hf : f.Valid) (hposition : f.position ≤ high) :
    (lone τ f symbol s hlt).Before f false s :=
  ⟨Frame.context_agrees hf, hposition, nofun⟩

end Setting

namespace Expr.Arithmetic

variable {S : Setting} {σ τ : Session} {fs : List Frame} {code : Code} {s : State}

theorem ensures_operands {op : BinOp} {lhs rhs : Expr} (hl : Arithmetic lhs) (hr : Arithmetic rhs)
    {target : Reservation}
    (hcode : ((Expr.binary op lhs rhs (op.result lhs.ty rhs.ty)).lower target).run σ = (.ok code, τ))
    (hf : σ.frames = {} :: fs) (hafter : S.After τ) (hbefore : S.Before {} false s) :
    ∃ operandCode opCode, code = operandCode ++ opCode ∧
      op.code target (.ofReg (op.result lhs.ty rhs.ty) .indirectResult) (.ofReg rhs.ty (.temp 0)) =
        .ok opCode ∧
      Code.Ensures S.world operandCode s fun t =>
        t.regs .indirectResult = lhs.worth ∧ t.regs (.temp 0) = rhs.worth := by
  have hbefore' : S.Before {} (lhs.containsCalls || rhs.containsCalls) s := by
    rw [hl.containsCalls, hr.containsCalls]
    exact hbefore
  obtain ⟨left, right, operandCode, opCode, f₁, f₂, f₃, rfl, hop, hleft, hrest, hright, hens⟩ :=
    (hl.isWorth S).operands (hr.isWorth S) hcode hf hafter hbefore'
  obtain ⟨rfl, hlive₁⟩ := Frame.reserveTemp_first hleft rfl
  have hfree : f₂.liveRegs.firstFree? Register.tempBank = some (.temp 0) := by
    rw [hrest.liveRegs, hlive₁]
    rfl
  obtain ⟨rfl, -⟩ := Frame.reserveTemp_first hright hfree
  exact ⟨operandCode, opCode, rfl, hop, hens.mono fun t ht => ⟨ht.1, ht.2.1⟩⟩

/-- A register gets the value of the expression. In x9 the outermost binary operator takes its left operand
twice. -/
theorem ensures_register {expr : Expr} (h : Arithmetic expr) {reg : Register} {ty : Ty}
    (hreg : reg.Volatile) (hcode : (expr.lower (.ofReg ty reg)).run σ = (.ok code, τ))
    (hf : σ.frames = {} :: fs) (hafter : S.After τ) (hbefore : S.Before {} false s) :
    Code.Ensures S.world code s fun t =>
      t.regs reg = if reg = .temp 0 then expr.doubled else expr.worth := by
  have hfp : reg ≠ .framePointer := by
    rintro rfl
    exact hreg
  induction h using Arithmetic.induct generalizing ty code with
  | literal value =>
    obtain ⟨hput, rfl⟩ := Lower.lift_run hcode
    refine (Code.ensures_putConstant hput).mono fun t ht => ?_
    rw [doubled, ite_self]
    exacts [ht.read, nofun, nofun]
  | binary op lhs rhs hlhs hrhs _ ihl ihr =>
    obtain ⟨operandCode, opCode, rfl, hop, hens⟩ := hlhs.ensures_operands hrhs hcode hf hafter hbefore
    rw [Code.ensures_append]
    refine hens.mono fun t ⟨hleft, hright⟩ => ?_
    refine (BinOp.ensures_code_register hop hfp).mono fun u hu => ?_
    rw [hu, hleft, hright, BinOp.result_result, Expr.worth, doubled]
    by_cases hx9 : reg = .temp 0
    · rw [if_pos hx9, if_pos hx9.symm]
    · rw [if_neg hx9, if_neg (Ne.symm hx9)]
  | unary op operand hoperand _ hderef haddr ih =>
    rw [Expr.lower, if_neg haddr] at hcode
    obtain ⟨-, ⟨reg', hreg', operandCode, opCode, hoperandCode, hop, rfl⟩ | ⟨hnone, -⟩⟩ :=
      Lower.unary_ok hcode
    · cases hreg'
      rw [Code.ensures_append]
      refine (ih hoperandCode).mono fun t ht => ?_
      refine (UnOp.ensures_code_register hop hderef).mono fun u hu => ?_
      rw [hu, ht, Expr.worth, doubled]
      split <;> rfl
    · cases hnone

theorem ensures_slot {expr : Expr} (h : Arithmetic expr) {offset : Int}
    (hcode : (expr.lower ⟨.slot offset, expr.ty⟩).run σ = (.ok code, τ)) (hf : σ.frames = {} :: fs)
    (hafter : S.After τ) (hbefore : S.Before {} false s) :
    Code.Ensures S.world code s fun t => t.read ⟨.slot offset, expr.ty⟩ = expr.worth := by
  have hlow : expr.ty.width.low expr.worth = expr.worth := (h.isWorth S).low
  have hreceives : Reservation.Receives ⟨.slot offset, expr.ty⟩ := ⟨nofun, nofun⟩
  have hkeep : ∀ {t : State}, t.read ⟨.slot offset, expr.ty⟩ =
      Reservation.keep ⟨.slot offset, expr.ty⟩ expr.worth →
      t.read ⟨.slot offset, expr.ty⟩ = expr.worth := fun hread => hread.trans hlow
  induction h using Arithmetic.induct with
  | literal value =>
    obtain ⟨hput, rfl⟩ := Lower.lift_run hcode
    exact (Code.ensures_putConstant hput).mono fun t ht => hkeep ht.read
  | binary op lhs rhs hlhs hrhs _ _ _ =>
    obtain ⟨operandCode, opCode, rfl, hop, hens⟩ := hlhs.ensures_operands hrhs hcode hf hafter hbefore
    rw [Code.ensures_append]
    refine hens.mono fun t ⟨hleft, hright⟩ => ?_
    refine (BinOp.ensures_code hop hreceives nofun).mono fun u hu => hkeep ?_
    have hread := hu.read
    have hleft' : t.read (.ofReg (op.result lhs.ty rhs.ty) .indirectResult) = lhs.worth := hleft
    have hright' : t.read (.ofReg rhs.ty (.temp 0)) = rhs.worth := hright
    rw [hleft', hright'] at hread
    rw [hread, Expr.worth]
    exact congrArg _ (congrArg (fun ty : Ty => ty.width.low _) (BinOp.result_result op lhs.ty rhs.ty))
  | unary op operand hoperand _ hderef haddr _ =>
    rw [Expr.lower, if_neg haddr] at hcode
    obtain ⟨-, ⟨reg, hreg, -⟩ | ⟨-, res, operandCode, opCode, σ₁, σ₂, hres, hoperandCode, hop, hrelease, rfl⟩⟩ :=
      Lower.unary_ok hcode
    · cases hreg
    · rw [Code.ensures_append]
      obtain ⟨g, -, hreserves, -, hens⟩ := (hoperand.isWorth S).temp (hoperand.isWorth S).low hres hoperandCode hf
        (hafter.of_releaseTemp hrelease) hbefore (fun hcalls => hoperand.containsCalls.symm.trans hcalls)
      refine hens.mono fun t ht => ?_
      refine (UnOp.ensures_code hop hreceives hderef).mono fun u hu => hkeep ?_
      have hread := hu.read
      rw [ht.1, hreserves.ty] at hread
      exact hread

end Expr.Arithmetic

/-! ## Registers and slots -/

namespace Expr

variable {σ τ : Session} {code : Code}

theorem lowerAlone_run {expr : Expr} {target : Reservation} {g : Frame}
    (h : (expr.lower target).run { σ with frames := {} :: σ.frames } = (.ok code, τ))
    (hg : τ.frames = g :: σ.frames) (hempty : g.temporaries = []) :
    (expr.lowerAlone [] target).run σ = (.ok code, { τ with frames := σ.frames }) := by
  have hlive : (onFrame (Frame.temporaries <$> get)).run τ = (.ok [], τ) := by
    rw [Session.onFrame_run, hg]
    simp [hempty, ← hg]
  refine StepM.run_bind_eq_ok.mpr ⟨(code, g), _, Session.inFrame_run ?_ hg, rfl⟩
  refine StepM.run_bind_eq_ok.mpr ⟨⟨⟩, _, rfl, StepM.run_bind_eq_ok.mpr ⟨code, τ, h, ?_⟩⟩
  exact StepM.run_bind_eq_ok.mpr ⟨[], τ, hlive, rfl⟩

/-- An expression of literals is lowered into every register that a function may change and into every
slot. The slot gets its value. So does the register unless it is x9, which gets the same value exactly if
doubling the left operand of the outermost operator does not change it. -/
theorem lowerAlone_agrees_iff {expr : Expr} (h : Arithmetic expr) (hdepth : 32 * expr.depth < 2 ^ 64)
    {reg : Register} (hreg : reg.Volatile) (offset : Int) (σ : Session) (symbol : Label → Word)
    (s : State) :
    ∃ regCode slotCode τ υ t u,
      (expr.lowerAlone [] (.ofReg expr.ty reg)).run σ = (.ok regCode, τ) ∧
      (expr.lowerAlone [] ⟨.slot offset, expr.ty⟩).run σ = (.ok slotCode, υ) ∧
      Code.exec symbol regCode s = some t ∧ Code.exec symbol slotCode s = some u ∧
      u.read ⟨.slot offset, expr.ty⟩ = expr.worth ∧
      (t.regs reg = u.read ⟨.slot offset, expr.ty⟩ ↔ reg = .temp 0 → expr.doubled = expr.worth) := by
  have hframes : ({ σ with frames := {} :: σ.frames } : Session).frames = {} :: σ.frames := rfl
  obtain ⟨regCode, τ, g, hregCode, hg, hrest, hpeak⟩ :=
    h.lowersWithin (Reservation.isAssigned_ofReg expr.ty reg) hframes .empty
  have hassigned : Reservation.isAssigned ⟨.slot offset, expr.ty⟩ = true := rfl
  obtain ⟨slotCode, υ, k, hslotCode, hk, hrest', hpeak'⟩ := h.lowersWithin hassigned hframes .empty
  rw [Nat.zero_add, Nat.max_eq_right (Nat.zero_le _)] at hpeak hpeak'
  have hafter : (Setting.lone τ {} symbol s hdepth).After τ := Setting.lone_after hg hpeak
  have hafter' : (Setting.lone υ {} symbol s hdepth).After υ := Setting.lone_after hk hpeak'
  obtain ⟨t, ht, hvalue⟩ := Code.exec_of_ensures
    (h.ensures_register hreg hregCode hframes hafter (Setting.lone_before .empty (Nat.zero_le _)))
  obtain ⟨u, hu, hread⟩ := Code.exec_of_ensures
    (h.ensures_slot hslotCode hframes hafter' (Setting.lone_before .empty (Nat.zero_le _)))
  refine ⟨regCode, slotCode, _, _, t, u, lowerAlone_run hregCode hg hrest.temporaries,
    lowerAlone_run hslotCode hk hrest'.temporaries, ht, hu, hread, ?_⟩
  rw [hvalue, hread]
  split
  case isTrue hx9 => exact ⟨fun heq _ => heq, fun himp => himp hx9⟩
  case isFalse hne => exact iff_of_true rfl fun hx9 => absurd hx9 hne

def difference : Expr :=
  .binary (.arith .sub) (.literal (.int 5) .int) (.literal (.int 3) .int) .int

theorem arithmetic_difference : Arithmetic difference :=
  .binary (.literal (.int 5)) (.literal (.int 3)) (show Build.binary (.arith .sub) _ _ = _ from rfl)

/-- The difference is 2 in x0 and in a slot. -/
theorem lowerAlone_agrees_iff_x0 :
    let s : State := ⟨fun _ => 4096, fun _ => 0, Flags.compare 0 0⟩
    ∃ regCode slotCode τ υ t u,
      (difference.lowerAlone [] (.ofReg .int .x0)).run (Session.start {}) = (.ok regCode, τ) ∧
      (difference.lowerAlone [] ⟨.slot 8, .int⟩).run (Session.start {}) = (.ok slotCode, υ) ∧
      Code.exec (fun _ => 0) regCode s = some t ∧ Code.exec (fun _ => 0) slotCode s = some u ∧
      t.regs .x0 = 2 ∧ u.read ⟨.slot 8, .int⟩ = 2 := by
  intro s
  have hx0 : Register.x0.Volatile := trivial
  obtain ⟨regCode, slotCode, τ, υ, t, u, hregCode, hslotCode, ht, hu, hread, hiff⟩ :=
    lowerAlone_agrees_iff arithmetic_difference (by decide) hx0 8 (Session.start {}) (fun _ => 0) s
  have hvalue : u.read ⟨.slot 8, .int⟩ = 2 := hread
  exact ⟨regCode, slotCode, τ, υ, t, u, hregCode, hslotCode, ht, hu, (hiff.mpr nofun).trans hvalue, hvalue⟩

/-- The difference is 0 in x9 and 2 in a slot. -/
theorem lowerAlone_differs :
    let s : State := ⟨fun _ => 4096, fun _ => 0, Flags.compare 0 0⟩
    ∃ regCode slotCode τ υ t u,
      (difference.lowerAlone [] (.ofReg .int (.temp 0))).run (Session.start {}) = (.ok regCode, τ) ∧
      (difference.lowerAlone [] ⟨.slot 8, .int⟩).run (Session.start {}) = (.ok slotCode, υ) ∧
      Code.exec (fun _ => 0) regCode s = some t ∧ Code.exec (fun _ => 0) slotCode s = some u ∧
      t.regs (.temp 0) = 0 ∧ u.read ⟨.slot 8, .int⟩ = 2 :=
  ⟨_, _, _, _, _, _, rfl, rfl, rfl, rfl, rfl, rfl⟩

end Expr

end ArmBackend
