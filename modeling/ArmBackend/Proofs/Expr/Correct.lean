import ArmBackend.Proofs.Expr.Setting

/-!
# Expressions are lowered correctly

The code of an expression leaves the value of the expression in its target, whatever the target and
however many temporaries are live.
-/

namespace ArmBackend

open Session (onFrame Advances onFrame_ok)

/-- A variable is copied to its own slot only under its own type. -/
def Expr.Admits (f : Frame) (target : Reservation) : Expr → Prop
  | .var name _ => ∀ slot, f.symbols.lookup name = some slot →
    slot.reservation.location = target.location → slot.reservation = target
  | _ => True

theorem Expr.admits_ofReg (expr : Expr) (f : Frame) (ty : Ty) (reg : Register) :
    expr.Admits f (.ofReg ty reg) := by
  cases expr with
  | var name ty => exact fun slot _ hslot => by cases hslot
  | _ => trivial

theorem Reserves.admits {f g : Frame} {ty : Ty} {res : Reservation} (hres : Reserves f ty res g)
    {ctx : Context} {bound : Nat} {s : State} (hagrees : ctx.Agrees f bound s) {expr : Expr}
    {v : Word} (hv : expr.eval ctx = some v) : expr.Admits g res := by
  cases expr with
  | var name ty' =>
    intro slot hlookup hloc
    obtain ⟨slot', hlookup', hsize, hle, hposition, -⟩ := hagrees.value hv
    rw [hres.within.symbols, hlookup'] at hlookup
    cases hlookup
    have hapart := hres.apart slot.offset hloc.symm
    obtain ⟨slot'', hslot, hsize', -⟩ := hres.fits.exists_slot hloc.symm
    have hty : res.ty = slot''.ty := congrArg Reservation.ty hslot
    rw [hty] at hapart
    omega
  | _ => trivial

namespace BinOp

theorem low_result {op : BinOp} {lhs rhs : Ty} {v : Word} (h : lhs.width.low v = v) :
    (op.result lhs rhs).width.low v = v := by
  rw [result]
  split
  · rfl
  split
  · exact h
  split
  case isTrue hptr => cases rhs <;> first | rfl | cases hptr
  split
  · exact h
  · rfl

theorem result_result (op : BinOp) (lhs rhs : Ty) :
    op.result (op.result lhs rhs) rhs = op.result lhs rhs := by
  cases hcompare : op.isComparison with
  | true => simp [result, hcompare]
  | false =>
    cases lhs <;> cases rhs <;> simp only [result, hcompare, Ty.isPointer] <;> grind

end BinOp

theorem Lower.ensures_address_leaves {w : World} {s : State} {build : Register → Code}
    {target : Reservation} {code : Code} {a : Word} (h : Lower.address target build = .ok code)
    (htarget : target.Receives)
    (hbuild : ∀ reg, reg ≠ .framePointer → ∀ Q, Code.Ensures w (build reg) s Q ↔ Q (s.set reg a)) :
    Code.Ensures w code s (Leaves target a target.Touches s) := by
  obtain ⟨copyCode, hcopy, rfl⟩ := Lower.address_ok h
  rw [Code.ensures_append, hbuild _ htarget.staging_ne.1]
  refine Code.ensures_finish_leaves hcopy htarget (State.set_regs_self _ _ _) ?_
  exact .set target.touches_staging

namespace Setting

variable {S : Setting} {σ σ₁ σ₂ τ : Session} {f : Frame} {fs : List Frame} {s : State}

def Evaluates (S : Setting) (expr : Expr) (v : Word) : Prop :=
  ∀ ⦃target σ τ code f fs s⦄, (expr.lower target).run σ = (.ok code, τ) → σ.frames = f :: fs →
    S.After τ → target.Fits f → expr.Admits f target → S.Before f expr.containsCalls s →
    Code.Ensures S.world code s (Lands f expr.containsCalls S.bound target v s)

/-- A well-typed expression without arrays that is worth `v` and lowered correctly. -/
structure Worth (S : Setting) (expr : Expr) (v : Word) : Prop where
  eval : expr.eval S.ctx = some v
  arrayFree : expr.arrayFree = true
  wellTyped : expr.WellTyped
  evaluates : S.Evaluates expr v

theorem Worth.low {expr : Expr} {v : Word} (h : S.Worth expr v) : expr.ty.width.low v = v :=
  Expr.low_eval S.typed h.wellTyped h.eval

theorem After.of_releaseTemp (h : S.After τ)
    (hrun : (onFrame Frame.releaseTemp).run σ = (.ok (), τ)) : S.After σ :=
  h.of_advances (onFrame_ok hrun).1 Frame.releaseTemp_highWater

theorem After.of_lower {expr : Expr} {target : Reservation} {code : Code} (h : S.After τ)
    (hrun : (expr.lower target).run σ = (.ok code, τ)) : S.After σ :=
  h.of_advances (Expr.lower_grows hrun) Frame.Grows.highWater

theorem After.of_reserveTemp {ty : Ty} {res : Reservation} (h : S.After τ)
    (hrun : (onFrame (Frame.reserveTemp ty)).run σ = (.ok res, τ)) : S.After σ :=
  h.of_advances (onFrame_ok hrun).1 fun hrun => (Frame.reserveTemp_highWater hrun).1

theorem Worth.reserved {expr : Expr} {v : Word} {ty : Ty} {res : Reservation} {code : Code}
    {calls : Bool} {f₁ : Frame} (hexpr : S.Worth expr v) (hres : Reserves f ty res f₁)
    (hmax : f₁.position ≤ max f.position f₁.highWater)
    (hcode : (expr.lower res).run σ₁ = (.ok code, σ₂)) (hf₁ : σ₁.frames = f₁ :: fs)
    (hafter : S.After σ₂) (hbefore : S.Before f calls s)
    (hcalls : expr.containsCalls = true → calls = true) :
    ∃ g, σ₂.frames = g :: fs ∧ Reserves f ty res g ∧ g.position ≤ S.extent ∧
      Code.Ensures S.world code s fun t => t.read res = res.keep v ∧
        ChangesOnly (f.Clobbers expr.containsCalls)
          (Scratch (s.regs .framePointer) f.position S.bound) s t := by
  obtain ⟨g, hg, hrest⟩ := (Expr.lower_rests hexpr.arrayFree hcode).frames hf₁
  have hpeak := hafter.peak hg
  have hhigh := hrest.highWater
  have hposition := hrest.position
  have hle := hbefore.position
  have hlt := S.bound_lt
  have hextent := S.extent_le
  refine ⟨g, hg, hres.mono (.refl f) hrest.within, by omega, ?_⟩
  have hbefore₁ : S.Before f₁ expr.containsCalls s :=
    hbefore.of_only hres.within (by omega) hcalls id id (.refl (fun _ => False) _ s)
  exact (hexpr.evaluates hcode hf₁ hafter hres.fits (hres.admits hbefore.agrees hexpr.eval)
    hbefore₁).mono fun t ht => ⟨ht.read, hres.only (by omega) hlt ht⟩

theorem Worth.temp_keep {expr : Expr} {v : Word} {ty : Ty} {res : Reservation} {code : Code}
    {calls : Bool} (hexpr : S.Worth expr v)
    (hreserve : (onFrame (Frame.reserveTemp ty)).run σ = (.ok res, σ₁))
    (hcode : (expr.lower res).run σ₁ = (.ok code, σ₂)) (hf : σ.frames = f :: fs)
    (hafter : S.After σ₂) (hbefore : S.Before f calls s)
    (hcalls : expr.containsCalls = true → calls = true) :
    ∃ g, σ₂.frames = g :: fs ∧ Reserves f ty res g ∧ g.position ≤ S.extent ∧
      Code.Ensures S.world code s fun t => t.read res = res.keep v ∧
        ChangesOnly (f.Clobbers expr.containsCalls)
          (Scratch (s.regs .framePointer) f.position S.bound) s t := by
  obtain ⟨f₁, hf₁, hrun⟩ := (onFrame_ok hreserve).1.frames hf
  exact hexpr.reserved (.of_run hrun) (Frame.reserveTemp_highWater hrun).2 hcode hf₁ hafter hbefore
    hcalls

theorem Worth.variable_keep {expr : Expr} {v : Word} {ty : Ty} {slot : Slot} {code : Code}
    {calls : Bool} (hexpr : S.Worth expr v)
    (hreserve : (onFrame (Frame.reserveVariable ty)).run σ = (.ok slot, σ₁))
    (hcode : (expr.lower slot.reservation).run σ₁ = (.ok code, σ₂)) (hf : σ.frames = f :: fs)
    (hafter : S.After σ₂) (hbefore : S.Before f calls s)
    (hcalls : expr.containsCalls = true → calls = true) :
    ∃ g, σ₂.frames = g :: fs ∧ Reserves f ty slot.reservation g ∧ g.position ≤ S.extent ∧
      Code.Ensures S.world code s fun t => t.read slot.reservation = ty.width.low v ∧
        ChangesOnly (f.Clobbers expr.containsCalls)
          (Scratch (s.regs .framePointer) f.position S.bound) s t := by
  obtain ⟨f₁, hf₁, hrun⟩ := (onFrame_ok hreserve).1.frames hf
  have hres := Reserves.of_reserveVariable hrun
  obtain ⟨-, -, rfl, rfl⟩ := Frame.reserveVariable_ok hrun
  refine hexpr.reserved hres ?_ hcode hf₁ hafter hbefore hcalls
  simp only [Frame.withSlot]
  omega

theorem Worth.temp {expr : Expr} {v : Word} {ty : Ty} {res : Reservation} {code : Code}
    {calls : Bool} (hexpr : S.Worth expr v) (hty : ty.width.low v = v)
    (hreserve : (onFrame (Frame.reserveTemp ty)).run σ = (.ok res, σ₁))
    (hcode : (expr.lower res).run σ₁ = (.ok code, σ₂)) (hf : σ.frames = f :: fs)
    (hafter : S.After σ₂) (hbefore : S.Before f calls s)
    (hcalls : expr.containsCalls = true → calls = true) :
    ∃ g, σ₂.frames = g :: fs ∧ Reserves f ty res g ∧ g.position ≤ S.extent ∧
      Code.Ensures S.world code s fun t => t.read res = v ∧
        ChangesOnly (f.Clobbers expr.containsCalls)
          (Scratch (s.regs .framePointer) f.position S.bound) s t := by
  obtain ⟨g, hg, hres, hposition, hens⟩ :=
    hexpr.temp_keep hreserve hcode hf hafter hbefore hcalls
  refine ⟨g, hg, hres, hposition, hens.mono fun t ⟨hread, honly⟩ => ⟨?_, honly⟩⟩
  rw [hread, Reservation.keep]
  split
  · rw [hres.ty, hty]
  · rfl

/-! ## Forms of expressions -/

theorem evaluates_literal (value : Literal) (ty : Ty) :
    S.Evaluates (.literal value ty) value.bits := by
  intro target σ τ code f fs s h hf hafter hfits _ hbefore
  obtain ⟨hcode, rfl⟩ := Lower.lift_run h
  exact (Code.ensures_putConstant hcode).mono fun t ht => ht.lands f _ S.bound

theorem evaluates_var {name : String} {ty : Ty} {v : Word}
    (hv : (Expr.var name ty).eval S.ctx = some v) : S.Evaluates (.var name ty) v := by
  intro target σ τ code f fs s h hf hafter hfits hadmits hbefore
  obtain ⟨slot, σ₁, hslot, h₁⟩ := StepM.run_bind_eq_ok.mp h
  obtain ⟨hcopy, rfl⟩ := Lower.lift_run h₁
  obtain ⟨f', fs', g, hf', hresolve, -⟩ := (onFrame_ok hslot).2
  rw [hf] at hf'
  cases hf'
  obtain ⟨hlookup, -⟩ := Frame.resolve_ok hresolve
  obtain ⟨slot', hlookup', hsize, hle, hposition, hread⟩ := hbefore.agrees.value hv
  rw [hlookup] at hlookup'
  cases hlookup'
  by_cases hsame : slot.reservation = target
  · -- The variable is the target and no code is needed.
    have hnil : code = [] := by
      rw [← hsame] at hcopy
      simp only [Code.copy, Reservation.sameStorage, beq_self_eq_true, if_true] at hcopy
      cases hcopy
      rfl
    subst hnil hsame
    refine ⟨hread.trans ?_, .refl _ _ s⟩
    rw [← hread]
    exact (slot.reservation.keep_read s).symm
  · have hne : ∀ offset, slot.reservation.location = .slot offset →
        target.location ≠ .slot offset := fun offset ho ht =>
      hsame (hadmits slot hlookup (ho.trans ht.symm))
    refine (Code.ensures_copy hcopy hfits.receives.1 hne).mono fun t ht => ?_
    rw [hread] at ht
    exact ht.lands f _ S.bound

theorem Worth.operands {op : BinOp} {lhs rhs : Expr} {a b : Word} (hl : S.Worth lhs a)
    (hr : S.Worth rhs b) {target : Reservation} {code : Code}
    (h : (Lower.binary op (op.result lhs.ty rhs.ty) target lhs.operand rhs.operand).run σ = (.ok code, τ))
    (hf : σ.frames = f :: fs) (hafter : S.After τ)
    (hbefore : S.Before f (lhs.containsCalls || rhs.containsCalls) s) :
    ∃ left right operandCode opCode f₁ f₂ f₃, code = operandCode ++ opCode ∧
      op.code target left right = .ok opCode ∧
      (Frame.reserveTemp (op.result lhs.ty rhs.ty)).run f = (.ok left, f₁) ∧ Frame.Rests f₁ f₂ ∧
      (Frame.reserveTemp rhs.ty).run f₂ = (.ok right, f₃) ∧
      Code.Ensures S.world operandCode s fun t => t.read left = a ∧ t.read right = b ∧
        ChangesOnly (f.Clobbers (lhs.containsCalls || rhs.containsCalls))
          (Scratch (s.regs .framePointer) f.position S.bound) s t := by
  obtain ⟨left, leftCode, right, rightCode, opCode, σ₁, σ₂, σ₃, σ₄, σ₅, hleft, hleftCode, hright,
    hrightCode, hop, hrelease, hrelease', -, rfl⟩ := Lower.binary_ok h
  have hafter₄ := (hafter.of_releaseTemp hrelease').of_releaseTemp hrelease
  have hafter₂ := (hafter₄.of_lower hrightCode).of_reserveTemp hright
  have hcalls₁ : lhs.containsCalls = true → (lhs.containsCalls || rhs.containsCalls) = true :=
    fun h => by rw [h, Bool.true_or]
  have hcalls₂ : rhs.containsCalls = true → (lhs.containsCalls || rhs.containsCalls) = true :=
    fun h => by rw [h, Bool.or_true]
  obtain ⟨f₁, hf₁, hrun₁⟩ := (onFrame_ok hleft).1.frames hf
  obtain ⟨f₂, hf₂, hrest⟩ := (Expr.lower_rests hl.arrayFree hleftCode).frames hf₁
  obtain ⟨f₃, hf₃, hrun₃⟩ := (onFrame_ok hright).1.frames hf₂
  refine ⟨left, right, leftCode ++ rightCode, opCode, f₁, f₂, f₃, rfl, hop, hrun₁, hrest, hrun₃, ?_⟩
  obtain ⟨g₂, hg₂, hresl, hpos₂, hensl⟩ :=
    hl.temp (BinOp.low_result hl.low) hleft hleftCode hf hafter₂ hbefore hcalls₁
  cases hf₂.symm.trans hg₂
  rw [Code.ensures_append]
  refine hensl.mono fun t₁ ht₁ => ?_
  obtain ⟨hread₁, honly₁⟩ := ht₁
  have hbefore₁ : S.Before f₂ (lhs.containsCalls || rhs.containsCalls) t₁ :=
    hbefore.of_only hresl.within hpos₂ id (Frame.not_clobbers_framePointer _ _)
      (Frame.not_clobbers_stackPointer _ _) honly₁
  obtain ⟨g₄, hg₄, hresr, hpos₄, hensr⟩ :=
    hr.temp hr.low hright hrightCode hf₂ hafter₄ hbefore₁ hcalls₂
  refine hensr.mono fun t₂ ht₂ => ?_
  obtain ⟨hread₂, honly₂⟩ := ht₂
  have hlt := S.bound_lt
  have hextent := S.extent_le
  refine ⟨(hresl.read_eq (by omega) honly₂).trans hread₁, hread₂, ?_⟩
  have hfp₁ := honly₁.reg _ (Frame.not_clobbers_framePointer _ _)
  rw [hfp₁] at honly₂
  exact (honly₁.mono (fun _ hreg => hreg.mono hcalls₁) fun _ => id).trans
    (honly₂.mono (fun _ hreg => (hresl.within.clobbers hreg).mono hcalls₂)
      fun _ hmem => hmem.mono hresl.within.position (Nat.le_refl _))

theorem evaluates_binary {op : BinOp} {lhs rhs : Expr} {a b : Word}
    (hl : S.Worth lhs a) (hr : S.Worth rhs b) :
    S.Evaluates (.binary op lhs rhs (op.result lhs.ty rhs.ty))
      ((op.result lhs.ty rhs.ty).width.low (op.apply a b)) := by
  intro target σ τ code f fs s h hf hafter hfits _ hbefore
  obtain ⟨left, right, operandCode, opCode, f₁, f₂, f₃, rfl, hop, hleft, hrest, hright, hens⟩ :=
    hl.operands hr h hf hafter hbefore
  have hresl := Reserves.of_run hleft
  have hresr := Reserves.of_run hright
  rw [Code.ensures_append]
  refine hens.mono fun t ht => ?_
  obtain ⟨hreadl, hreadr, honly⟩ := ht
  have hne := hresr.ne_staging (hfits.within (hresl.within.trans hrest.within))
  refine (BinOp.ensures_code hop hfits.receives hne).mono fun u hu => ?_
  rw [hreadl, hreadr, hresl.ty, hresr.ty, BinOp.result_result] at hu
  exact hu.lands hfits (honly.mono (fun _ => Or.inr) fun _ => id)

/-! ### Unary operators -/

/-- The operand of a unary operator: in the target's register if it has one, else in a temporary. -/
theorem Worth.operand {op : UnOp} {operand : Expr} {a : Word} {target : Reservation}
    {code : Code} (hoperand : S.Worth operand a)
    (h : (Lower.unary op target operand.operand).run σ = (.ok code, τ)) (hf : σ.frames = f :: fs)
    (hafter : S.After τ) (hfits : target.Fits f) (hbefore : S.Before f operand.containsCalls s) :
    ∃ res operandCode opCode, code = operandCode ++ opCode ∧ res.ty = operand.ty ∧
      op.code target res = .ok opCode ∧
      Code.Ensures S.world operandCode s fun t => t.read res = a ∧
        ChangesOnly (fun reg => target.location = .reg reg ∨ f.Clobbers operand.containsCalls reg)
          (Scratch (s.regs .framePointer) f.position S.bound) s t := by
  obtain ⟨-, ⟨reg, hreg, operandCode, opCode, hcode, hop, rfl⟩ |
    ⟨-, res, operandCode, opCode, σ₁, σ₂, hres, hcode, hop, hrelease, rfl⟩⟩ := Lower.unary_ok h
  · have hloc : target.location = .reg reg := by
      obtain ⟨location, ty⟩ := target
      cases location <;> simp_all [Reservation.register?]
    refine ⟨_, operandCode, opCode, rfl, rfl, hop, ?_⟩
    have hfits' : Reservation.Fits (.ofReg operand.ty reg) f := by
      simp only [Reservation.Fits, hloc] at hfits
      exact hfits
    refine (hoperand.evaluates hcode hf hafter hfits' (operand.admits_ofReg f _ _) hbefore).mono
      fun t ht => ⟨ht.read, ?_⟩
    refine ht.only.mono (fun other hother => hother.imp_left fun h => ?_) fun a ha => ?_
    · exact hloc.trans h
    · exact ha.resolve_left id
  · obtain ⟨g, -, hreserves, -, hens⟩ := hoperand.temp hoperand.low hres hcode hf
      (hafter.of_releaseTemp hrelease) hbefore id
    exact ⟨res, operandCode, opCode, rfl, hreserves.ty, hop, hens.mono fun t ht =>
      ⟨ht.1, ht.2.mono (fun _ => Or.inr) fun _ => id⟩⟩

theorem evaluates_unary {op : UnOp} {operand : Expr} {ty : Ty} {a : Word}
    (hoperand : S.Worth operand a) (haddr : op ≠ .addrOf) (hderef : op ≠ .deref) :
    S.Evaluates (.unary op operand ty) (op.apply operand.ty a) := by
  intro target σ τ code f fs s h hf hafter hfits _ hbefore
  simp only [Expr.lower, if_neg haddr] at h
  obtain ⟨res, operandCode, opCode, rfl, hty, hop, hens⟩ :=
    hoperand.operand h hf hafter hfits hbefore
  rw [Code.ensures_append]
  refine hens.mono fun t ht => ?_
  obtain ⟨hread, honly⟩ := ht
  refine (UnOp.ensures_code hop hfits.receives hderef).mono fun u hu => ?_
  rw [hread, hty] at hu
  exact hu.lands hfits honly

theorem evaluates_through {operand : Expr} {a v : Word} (hoperand : S.Worth operand a)
    (hv : S.ctx.load (UnOp.deref.result operand.ty).width a = some v) {target : Reservation}
    {code : Code} (h : (Lower.unary .deref target operand.operand).run σ = (.ok code, τ))
    (hf : σ.frames = f :: fs) (hafter : S.After τ) (hfits : target.Fits f)
    (hbefore : S.Before f operand.containsCalls s) :
    Code.Ensures S.world code s (Lands f operand.containsCalls S.bound target v s) := by
  obtain ⟨res, operandCode, opCode, rfl, hty, hop, hens⟩ :=
    hoperand.operand h hf hafter hfits hbefore
  rw [Code.ensures_append]
  refine hens.mono fun t ⟨hread, honly⟩ => ?_
  refine (UnOp.ensures_deref hop hfits.receives).mono fun u hu => ?_
  obtain ⟨hload, hout⟩ := hbefore.agrees.load hv
  rw [hread, hty, honly.load_eq hout, hload] at hu
  exact hu.lands hfits honly

theorem evaluates_deref {pointer : Expr} {a v : Word} (hpointer : S.Worth pointer a)
    (hv : S.ctx.load (UnOp.deref.result pointer.ty).width a = some v) (ty : Ty) :
    S.Evaluates (.deref pointer ty) v ∧ S.Evaluates (.unary .deref pointer ty) v :=
  ⟨fun _ _ _ _ _ _ _ h hf hafter hfits _ hbefore =>
      evaluates_through hpointer hv h hf hafter hfits hbefore,
    fun _ _ _ _ _ _ _ h hf hafter hfits _ hbefore =>
      evaluates_through hpointer hv h hf hafter hfits hbefore⟩

/-! ### Addresses -/

theorem ensures_address {build : Register → Code} {target : Reservation} {code : Code} {a : Word}
    (h : Lower.address target build = .ok code) (hfits : target.Fits f)
    (hbuild : ∀ reg, reg ≠ .framePointer → ∀ Q, Code.Ensures S.world (build reg) s Q ↔ Q (s.set reg a))
    (calls : Bool) :
    Code.Ensures S.world code s (Lands f calls S.bound target a s) :=
  (Lower.ensures_address_leaves h hfits.receives hbuild).mono fun _ hu => hu.lands hfits (.refl _ _ s)

theorem evaluates_address {name : String} {ty ty' : Ty} {a : Word}
    (ha : S.ctx.address name = some a) : S.Evaluates (.unary .addrOf (.var name ty) ty') a := by
  intro target σ τ code f fs s h hf hafter hfits _ hbefore
  simp only [Expr.lower, if_true] at h
  obtain ⟨name', ty'', slot, heq, hslot, haddress⟩ := Lower.addressOf_ok h
  cases heq
  obtain ⟨f', fs', g, hf', hresolve, -⟩ := (onFrame_ok hslot).2
  rw [hf] at hf'
  cases hf'
  obtain ⟨hlookup, -⟩ := Frame.resolve_ok hresolve
  obtain ⟨slot', hlookup', ha'⟩ := hbefore.agrees.address ha
  rw [hlookup] at hlookup'
  cases hlookup'
  refine ensures_address haddress hfits (fun reg hreg Q => ?_) _
  rw [Code.ensures_frameAddress hreg, Slot.eval_offset, ha']

theorem evaluates_str (text : String) (ty : Ty) :
    S.Evaluates (.str text ty) (S.ctx.text text) := by
  intro target σ τ code f fs s h hf hafter hfits _ hbefore
  obtain ⟨label, hlabel, haddress⟩ := Lower.string_ok h
  obtain ⟨-, id, rfl, htext⟩ := Session.intern_ok hlabel
  refine ensures_address haddress hfits (fun reg _ Q => ?_) _
  rw [Code.ensures_labelAddress, hafter.texts htext]

end Setting

end ArmBackend
