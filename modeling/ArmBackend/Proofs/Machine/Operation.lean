import ArmBackend.Assembly.Operation
import ArmBackend.Proofs.Machine.Transfer
import ArmBackend.Step

/-!
# What operations ensure

The code of an operator leaves the operator's value in its target. It changes the target and the two
scratch registers at most.
-/

namespace ArmBackend

/-! ## Operators on words -/

/-- The value of an operator before it is cut to the type of the result. -/
def BinOp.apply : BinOp → Word → Word → Word
  | .arith op, a, b => op.eval a b
  | .compare cond, a, b => if cond.eval a b then 1 else 0

/-- The value of an operator on a value that is at hand, cut to the operand's type. -/
def UnOp.apply (ty : Ty) : UnOp → Word → Word
  | .neg, a => ty.width.low (-a)
  | .bitNot, a => ty.width.low (~~~a)
  | .not, a => if a = 0 then 1 else 0
  | .deref, a | .addrOf, a => a

theorem and_mask_eq_low (v : Word) : v &&& 0xff#64 = Width.low .byte v := by
  have hmask : 0xff#64 = (BitVec.allOnes 8).setWidth 64 := by decide
  apply BitVec.eq_of_getLsbD_eq
  intro i hi
  simp only [hmask, Width.low, BitVec.getLsbD_and, BitVec.getLsbD_setWidth, BitVec.getLsbD_allOnes]
  grind

/-! ## Reading after a change -/

theorem ChangesOnly.read_eq {regs : Register → Prop} {mem : Word → Prop} {s t : State}
    {res : Reservation} (h : ChangesOnly regs mem s t) (hfp : ¬ regs .framePointer)
    (hreg : ∀ reg, res.location = .reg reg → ¬ regs reg)
    (hmem : ∀ a, res.Covers (s.regs .framePointer) a → ¬ mem a) : t.read res = s.read res := by
  obtain ⟨location, ty⟩ := res
  cases location with
  | unassigned => rfl
  | reg reg => exact h.reg reg (hreg reg rfl)
  | slot offset =>
    simp only [State.read, h.reg _ hfp]
    exact h.load_eq hmem

namespace Code

variable {w : World} {s : State}

structure Sets (reg : Register) (v : Word) (s t : State) : Prop where
  holds : t.regs reg = v
  only : ChangesOnly (· = reg) (fun _ => False) s t

theorem Sets.of_set (reg : Register) (v : Word) (s : State) : Sets reg v s (s.set reg v) :=
  ⟨s.set_regs_self reg v, .set rfl⟩

theorem Sets.trans {reg : Register} {u v : Word} {s t t' : State} (h : Sets reg u s t)
    (h' : Sets reg v t t') : Sets reg v s t' :=
  ⟨h'.holds, h.only.trans h'.only⟩

theorem Sets.refl (reg : Register) (s : State) : Sets reg (s.regs reg) s s :=
  ⟨rfl, .refl _ _ s⟩

theorem ensures_truncate (ty : Ty) (reg : Register) :
    Ensures w (truncate ty reg) s (Sets reg (ty.width.low (s.regs reg)) s) := by
  rw [truncate, Ty.width]
  split
  · rw [ensures_ofInstrs_cons, ← and_mask_eq_low]
    exact ⟨_, rfl, .of_set reg _ s⟩
  · exact .refl reg s

theorem ensures_operandOf {res : Reservation} {code : Code} {src : Register}
    (h : operandOf res = .ok (code, src)) :
    Ensures w code s fun t =>
      t.regs src = s.read res ∧ ChangesOnly (· = .operand) (fun _ => False) s t := by
  obtain ⟨location, ty⟩ := res
  cases location with
  | unassigned => cases h
  | reg reg =>
    cases h
    exact ⟨rfl, .refl _ _ s⟩
  | slot offset =>
    cases h
    have hne : Register.operand ≠ .framePointer := by decide
    have hload := ensures_loadSlot_put (w := w) (s := s) hne offset ty ty
    exact hload.mono fun t ht => ⟨ht.read, ht.only⟩

theorem operandOf_src {res : Reservation} {code : Code} {src : Register}
    (h : operandOf res = .ok (code, src)) : res.location = .reg src ∨ src = .operand := by
  obtain ⟨location, ty⟩ := res
  cases location <;> cases h
  case reg => exact Or.inl rfl
  case slot => exact Or.inr rfl

theorem ensures_finish {target : Reservation} {code : Code}
    (h : copy (target.inRegister target.stagingRegister) target = .ok code) :
    Ensures w code s (Put target (s.regs target.stagingRegister) s) := by
  obtain ⟨location, ty⟩ := target
  cases location with
  | unassigned => simp [copy, Reservation.sameStorage, Reservation.inRegister, Reservation.ofReg] at h
  | reg dst =>
    simp [copy, Reservation.sameStorage, Reservation.inRegister, Reservation.ofReg,
      Reservation.stagingRegister, Reservation.register?] at h
    subst h
    exact ⟨rfl, .refl _ _ s⟩
  | slot offset =>
    simp [copy, Reservation.sameStorage, Reservation.inRegister, Reservation.ofReg,
      Reservation.stagingRegister, Reservation.register?] at h
    subst h
    exact ensures_storeSlot_put .staging offset ty

end Code

/-! ## Operators -/

namespace Reservation

/-- Where an operator may leave its result: not in the frame pointer and not in x17. -/
def Receives (target : Reservation) : Prop :=
  target.location ≠ .reg .framePointer ∧ target.location ≠ .reg .operand

theorem Receives.staging_ne {target : Reservation} (h : target.Receives) :
    target.stagingRegister ≠ .framePointer ∧ target.stagingRegister ≠ .operand := by
  obtain ⟨location, ty⟩ := target
  cases location with
  | reg reg => exact ⟨fun hr => h.1 (congrArg _ hr), fun hr => h.2 (congrArg _ hr)⟩
  | slot offset => exact ⟨nofun, nofun⟩
  | unassigned => exact ⟨nofun, nofun⟩

def Touches (target : Reservation) (reg : Register) : Prop :=
  target.location = .reg reg ∨ reg = .staging ∨ reg = .operand

theorem touches_staging (target : Reservation) : target.Touches target.stagingRegister := by
  obtain ⟨location, ty⟩ := target
  cases location with
  | reg reg => exact Or.inl rfl
  | slot offset => exact Or.inr (Or.inl rfl)
  | unassigned => exact Or.inr (Or.inl rfl)

theorem Spoils.touches {target : Reservation} {reg : Register} (h : target.Spoils reg) :
    target.Touches reg := by
  obtain ⟨location, ty⟩ := target
  cases location with
  | reg dst => exact Or.inl (congrArg _ h.symm)
  | slot offset => exact Or.inr h
  | unassigned => exact h.elim

theorem not_touches_framePointer {target : Reservation} (h : target.Receives) :
    ¬ target.Touches .framePointer :=
  fun ht => ht.elim h.1 fun ht => ht.elim nofun nofun

end Reservation

structure Leaves (target : Reservation) (v : Word) (regs : Register → Prop) (s t : State) :
    Prop where
  read : t.read target = target.keep v
  only : ChangesOnly regs (target.Covers (s.regs .framePointer)) s t

section

variable {w : World} {s : State}

theorem Code.ensures_finish_leaves {target : Reservation} {code : Code} {t : State} {v : Word}
    (h : copy (target.inRegister target.stagingRegister) target = .ok code)
    (htarget : target.Receives) (hv : t.regs target.stagingRegister = v)
    (honly : ChangesOnly target.Touches (fun _ => False) s t) :
    Ensures w code t (Leaves target v target.Touches s) := by
  have hfp : t.regs .framePointer = s.regs .framePointer :=
    honly.reg _ (Reservation.not_touches_framePointer htarget)
  refine (ensures_finish h).mono fun u hu => ⟨hv ▸ hu.read, ?_⟩
  have hput := hu.only.mono (fun _ => Reservation.Spoils.touches) fun _ => id
  rw [hfp] at hput
  exact (honly.mono (fun _ => id) fun _ => False.elim).trans hput

theorem BinOp.ensures_compute (op : BinOp) (dst src : Register) :
    Code.Ensures w
      (Code.ofInstrs (match op with
        | .arith op => [.arith op dst dst src]
        | .compare cond => [.cmp dst src, .cset dst cond])) s
      (Code.Sets dst (op.apply (s.regs dst) (s.regs src)) s) := by
  cases op with
  | arith op => exact ⟨_, rfl, .of_set dst _ s⟩
  | compare cond =>
    refine ⟨_, rfl, _, rfl, ?_⟩
    simp only [Cond.holds_compare]
    exact ⟨State.set_regs_self _ _ _, ⟨fun _ hr => State.set_regs_ne _ _ hr, fun _ _ => rfl⟩⟩

/-- A binary operator leaves its value in its target. The right operand may not be in the register
in which the result is built. -/
theorem BinOp.ensures_code {op : BinOp} {target lhs rhs : Reservation} {code : Code}
    (h : op.code target lhs rhs = .ok code) (htarget : target.Receives)
    (hrhs : rhs.location ≠ .reg target.stagingRegister) :
    Code.Ensures w code s
      (Leaves target ((op.result lhs.ty rhs.ty).width.low (op.apply (s.read lhs) (s.read rhs)))
        target.Touches s) := by
  obtain ⟨hdstFp, hdstOperand⟩ := htarget.staging_ne
  have hdst := target.touches_staging
  simp only [BinOp.code] at h
  obtain ⟨setup, hsetup, h⟩ := StepM.outcome_bind_eq_ok.mp h
  obtain ⟨⟨load, src⟩, hload, h⟩ := StepM.outcome_bind_eq_ok.mp h
  obtain ⟨finish, hfinish, h⟩ := StepM.outcome_bind_eq_ok.mp h
  cases h
  simp only [Code.ensures_append]
  refine (Code.ensures_copy hsetup ?_ ?_).mono fun t₁ h₁ => ?_
  · exact fun hr => hdstFp (Location.reg.inj hr)
  · rintro _ _ ⟨⟩
  have hsrc : src ≠ target.stagingRegister := by
    rcases Code.operandOf_src hload with hr | rfl
    · exact fun hs => hrhs (hs ▸ hr)
    · exact hdstOperand.symm
  have hrhs₁ : t₁.read rhs = s.read rhs :=
    h₁.only.read_eq hdstFp.symm (fun reg hr hs => hrhs (hs ▸ hr)) fun _ _ => id
  refine (Code.ensures_operandOf hload).mono fun t₂ h₂ => ?_
  have hdst₂ : t₂.regs target.stagingRegister = s.read lhs :=
    (h₂.2.reg _ hdstOperand).trans h₁.read
  refine (op.ensures_compute target.stagingRegister src).mono fun t₃ h₃ => ?_
  refine (Code.ensures_truncate _ target.stagingRegister).mono fun t₄ h₄ => ?_
  refine Code.ensures_finish_leaves hfinish htarget ?_ ?_
  · rw [h₄.holds, h₃.holds, hdst₂, h₂.1, hrhs₁]
  · have hset : ∀ reg, reg = target.stagingRegister → target.Touches reg := fun _ hr => hr ▸ hdst
    exact (h₁.only.mono hset fun _ => id).trans <|
      (h₂.2.mono (fun _ hr => Or.inr (Or.inr hr)) fun _ => id).trans <|
      (h₃.only.mono hset fun _ => id).trans (h₄.only.mono hset fun _ => id)

def UnOp.compute (op : UnOp) (ty : Ty) (dst src : Register) : Except CompileError Code :=
  match op with
  | .neg => .ok (Code.ofInstrs [.neg dst src] ++ Code.truncate ty dst)
  | .bitNot => .ok (Code.ofInstrs [.mvn dst src] ++ Code.truncate ty dst)
  | .not => .ok (Code.ofInstrs [.cmpImm src 0, .cset dst .eq])
  | .deref =>
    match ty.pointee? with
    | some pointee => .ok (Code.loadThrough dst src pointee)
    | none => .error (.typeViolation (.dereference ty))
  | .addrOf => .error (.internal .addressOfAsValue)

theorem UnOp.code_eq (op : UnOp) (target operand : Reservation) :
    op.code target operand = do
      let (load, src) ← Code.operandOf operand
      let compute ← op.compute operand.ty target.stagingRegister src
      let finish ← Code.copy (target.inRegister target.stagingRegister) target
      return load ++ compute ++ finish := by
  cases op with
  | deref => simp only [UnOp.code, UnOp.compute]; cases operand.ty.pointee? <;> rfl
  | neg | bitNot | not | addrOf => rfl

theorem UnOp.ensures_code_of_compute {op : UnOp} {target operand : Reservation} {code : Code}
    {v : Word} (h : op.code target operand = .ok code) (htarget : target.Receives)
    (hcompute : ∀ {src compute t}, op.compute operand.ty target.stagingRegister src = .ok compute →
      t.regs src = s.read operand → t.mem = s.mem →
      Code.Ensures w compute t (Code.Sets target.stagingRegister v t)) :
    Code.Ensures w code s (Leaves target v target.Touches s) := by
  have hdst := target.touches_staging
  rw [UnOp.code_eq] at h
  obtain ⟨⟨load, src⟩, hload, h⟩ := StepM.outcome_bind_eq_ok.mp h
  obtain ⟨compute, hcode, h⟩ := StepM.outcome_bind_eq_ok.mp h
  obtain ⟨finish, hfinish, h⟩ := StepM.outcome_bind_eq_ok.mp h
  cases h
  simp only [Code.ensures_append]
  refine (Code.ensures_operandOf hload).mono fun t₁ h₁ => ?_
  have hmem : t₁.mem = s.mem := funext fun a => h₁.2.byte a id
  refine (hcompute hcode h₁.1 hmem).mono fun t₂ h₂ => ?_
  refine Code.ensures_finish_leaves hfinish htarget h₂.holds ?_
  exact (h₁.2.mono (fun _ hr => Or.inr (Or.inr hr)) fun _ => id).trans
    (h₂.only.mono (fun _ hr => hr ▸ hdst) fun _ => id)

theorem UnOp.ensures_compute {op : UnOp} {ty : Ty} {dst src : Register} {compute : Code}
    (h : op.compute ty dst src = .ok compute) (hderef : op ≠ .deref) :
    Code.Ensures w compute s (Code.Sets dst (op.apply ty (s.regs src)) s) := by
  cases op with
  | deref => exact absurd rfl hderef
  | addrOf => cases h
  | neg =>
    cases h
    refine ⟨_, rfl, (Code.ensures_truncate ty _).mono fun u hu => ?_⟩
    rw [State.set_regs_self] at hu
    exact (Code.Sets.of_set _ _ s).trans hu
  | bitNot =>
    cases h
    refine ⟨_, rfl, (Code.ensures_truncate ty _).mono fun u hu => ?_⟩
    rw [State.set_regs_self] at hu
    exact (Code.Sets.of_set _ _ s).trans hu
  | not =>
    cases h
    refine ⟨_, rfl, _, rfl, ?_⟩
    simp only [Cond.holds_compare]
    refine ⟨?_, ⟨fun _ hr => State.set_regs_ne _ _ hr, fun _ _ => rfl⟩⟩
    rw [State.set_regs_self]
    simp only [Cond.eval, UnOp.apply, beq_iff_eq]
    rfl

theorem UnOp.ensures_code {op : UnOp} {target operand : Reservation} {code : Code}
    (h : op.code target operand = .ok code) (htarget : target.Receives) (hderef : op ≠ .deref) :
    Code.Ensures w code s
      (Leaves target (op.apply operand.ty (s.read operand)) target.Touches s) :=
  UnOp.ensures_code_of_compute h htarget fun hcode hsrc _ => hsrc ▸ UnOp.ensures_compute hcode hderef

theorem UnOp.ensures_deref {target operand : Reservation} {code : Code}
    (h : UnOp.deref.code target operand = .ok code) (htarget : target.Receives) :
    Code.Ensures w code s
      (Leaves target (s.load (UnOp.deref.result operand.ty).width (s.read operand)) target.Touches
        s) := by
  refine UnOp.ensures_code_of_compute h htarget fun {src compute t} hcode hsrc hmem => ?_
  simp only [UnOp.compute] at hcode
  split at hcode <;> cases hcode
  case h_1 pointee hpointee =>
    have hload : t.load pointee.width (t.regs src) = s.load pointee.width (s.read operand) := by
      rw [hsrc]
      exact State.load_congr fun b _ => congrFun hmem b
    have hresult : UnOp.deref.result operand.ty = pointee := by
      simp only [UnOp.result, hpointee, Option.getD_some]
    rw [hresult, ← hload]
    exact ⟨_, rfl, .of_set _ _ t⟩

/-! ### Operators between registers -/

theorem UnOp.ensures_code_register {op : UnOp} {dst src : Register} {ty ty' : Ty} {code : Code}
    (h : op.code (.ofReg ty dst) (.ofReg ty' src) = .ok code) (hderef : op ≠ .deref) :
    Code.Ensures w code s fun t => t.regs dst = op.apply ty' (s.regs src) := by
  rw [UnOp.code_eq] at h
  obtain ⟨⟨load, src'⟩, hload, h⟩ := StepM.outcome_bind_eq_ok.mp h
  obtain ⟨compute, hcode, h⟩ := StepM.outcome_bind_eq_ok.mp h
  obtain ⟨finish, hfinish, h⟩ := StepM.outcome_bind_eq_ok.mp h
  cases h
  cases hload
  rw [List.nil_append, Code.ensures_append]
  refine (UnOp.ensures_compute hcode hderef).mono fun t ht => ?_
  exact (Code.ensures_finish hfinish).mono fun u hu => hu.read.trans ht.holds

/-- A binary operator whose result is built in the register of its right operand takes its left operand
twice, which has overwritten the right one. -/
theorem BinOp.ensures_code_register {op : BinOp} {dst lhs rhs : Register} {ty lty rty : Ty} {code : Code}
    (h : op.code (.ofReg ty dst) (.ofReg lty lhs) (.ofReg rty rhs) = .ok code)
    (hdst : dst ≠ .framePointer) :
    Code.Ensures w code s fun t => t.regs dst = (op.result lty rty).width.low
      (op.apply (s.regs lhs) (if rhs = dst then s.regs lhs else s.regs rhs)) := by
  simp only [BinOp.code] at h
  obtain ⟨setup, hsetup, h⟩ := StepM.outcome_bind_eq_ok.mp h
  obtain ⟨⟨load, src⟩, hload, h⟩ := StepM.outcome_bind_eq_ok.mp h
  obtain ⟨finish, hfinish, h⟩ := StepM.outcome_bind_eq_ok.mp h
  cases h
  cases hload
  simp only [List.append_nil, Code.ensures_append]
  have hreg : ∀ offset, Location.reg lhs = .slot offset → Location.reg dst ≠ .slot offset := by
    rintro offset ⟨⟩
  refine (Code.ensures_copy hsetup (fun hr => hdst (Location.reg.inj hr)) hreg).mono fun t₁ h₁ => ?_
  have hleft : t₁.regs dst = s.regs lhs := h₁.read
  have hright : t₁.regs rhs = if rhs = dst then s.regs lhs else s.regs rhs := by
    split
    case isTrue heq => rw [heq, hleft]
    case isFalse hne => exact h₁.only.reg rhs hne
  refine (op.ensures_compute dst rhs).mono fun t₂ h₂ => ?_
  refine (Code.ensures_truncate _ dst).mono fun t₃ h₃ => ?_
  refine (Code.ensures_finish hfinish).mono fun t₄ h₄ => ?_
  have hfinal : t₄.regs dst = t₃.regs dst := h₄.read
  rw [hfinal, h₃.holds, h₂.holds, hleft, hright]
  rfl

end

end ArmBackend
