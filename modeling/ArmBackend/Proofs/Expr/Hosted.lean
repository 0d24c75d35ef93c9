import ArmBackend.Proofs.Expr.Correct
import ArmBackend.Proofs.Expr.Evaluation

/-!
# Code follows evaluations

The code of an expression takes the branches of an evaluation of it and leaves its value in the target.
Temporaries keep their values and memory outside the spill area changes in the branches only.
-/

namespace ArmBackend

open Session (onFrame Advances onFrame_ok)

/-- A scene on a machine, with a host that follows the calling convention and a stack pointer that may
be used. -/
structure Hosted extends Scene where
  host : Host
  conforms : host.Conforms
  aligned : (framePointer - BitVec.ofNat 64 extent).toNat % 16 = 0
  room : extent + Setting.saveRoom ≤ framePointer.toNat

theorem Code.Put.leaves {target : Reservation} {v : Word} {s t : State} (h : Put target v s t) :
    Leaves target v target.Touches s t :=
  ⟨h.read, h.only.mono (fun _ => Reservation.Spoils.touches) fun _ => id⟩

namespace Hosted

def everywhere : Nat := 2 ^ 64 - 1

def setting (S : Hosted) : Setting where
  world := Code.alone S.host.symbol
  ctx := ⟨fun _ _ => none, fun _ => none, fun _ _ => none, S.text, fun _ _ => none⟩
  label := S.label
  room := 0
  extent := S.extent
  bound := everywhere
  typed := ⟨nofun, nofun⟩
  serves := nofun
  extent_le := by
    have := S.room
    have := S.framePointer.isLt
    simp only [everywhere]
    omega
  bound_lt := by decide

def Mirrors (S : Hosted) (m s : State) : Prop := ∀ a, ¬ S.Spill a → s.mem a = m.mem a

def Spills (S : Hosted) (target : Reservation) : Prop :=
  ∀ offset, target.location = .slot offset → (S.low + target.ty.size : Int) ≤ offset

structure Before (S : Hosted) (f : Frame) (m s : State) : Prop where
  symbols : ∀ name, f.symbols.lookup name = S.slot name
  low : S.low ≤ f.position
  position : f.position ≤ S.extent
  framePointer : s.regs .framePointer = S.framePointer
  stackPointer : s.regs .stackPointer = S.framePointer - BitVec.ofNat 64 S.extent
  mirrors : S.Mirrors m s

variable {S : Hosted} {σ σ₁ σ₂ τ : Session} {f g : Frame} {fs : List Frame} {m m' s t : State}
  {past visits : List Visit} {target : Reservation} {v : Word}

theorem extent_lt (S : Hosted) : S.extent < 2 ^ 64 :=
  Nat.lt_of_le_of_lt S.setting.extent_le S.setting.bound_lt

theorem Before.of_only {regs : Register → Prop} {mem : Word → Prop} (h : S.Before f m s)
    (hfg : f.Within g) (hposition : g.position ≤ S.extent) (hfp : ¬ regs .framePointer)
    (hsp : ¬ regs .stackPointer) (honly : ChangesOnly regs mem s t) (hmirrors : S.Mirrors m' t) :
    S.Before g m' t where
  symbols := fun name => hfg.symbols ▸ h.symbols name
  low := Nat.le_trans h.low hfg.position
  position := hposition
  framePointer := (honly.reg _ hfp).trans h.framePointer
  stackPointer := (honly.reg _ hsp).trans h.stackPointer
  mirrors := hmirrors

theorem Mirrors.reads (h : S.Mirrors m s) (width : Width) (a : Word) :
    S.Reads m width a (s.load width a) :=
  fun hout => State.load_congr fun b hb => h b (hout b hb)

theorem Before.covers (h : S.Before f m s) (hfits : target.Fits f) (hspills : S.Spills target)
    {a : Word} (ha : target.Covers S.framePointer a) : S.Spill a := by
  obtain ⟨location, ty⟩ := target
  cases location with
  | reg reg => exact ha.elim
  | unassigned => exact ha.elim
  | slot offset =>
    obtain ⟨slot, heq, hsize, hle, hposition⟩ := hfits.exists_slot rfl
    have hlow := hspills offset rfl
    have hextent := h.position
    have hlt := S.extent_lt
    cases heq
    have hcovers := (Slot.covers_iff hsize hle (by omega)).mp ha
    change (S.low + slot.ty.size : Int) ≤ slot.offset at hlow
    exact ⟨by omega, by omega⟩

theorem Mirrors.of_leaves {regs : Register → Prop} {u : State} (h : S.Mirrors m t)
    (hbefore : S.Before f m' s) (hfits : target.Fits f) (hspills : S.Spills target)
    (hfp : t.regs .framePointer = S.framePointer) (hu : Leaves target v regs t u) :
    S.Mirrors m u := by
  intro a ha
  refine (hu.only.byte a fun hcovers => ha (hbefore.covers hfits hspills ?_)).trans (h a ha)
  exact hfp ▸ hcovers

theorem spills_ofReg (S : Hosted) (ty : Ty) (reg : Register) : S.Spills (.ofReg ty reg) := nofun

theorem Before.spills {ty : Ty} {res : Reservation} (h : S.Before f m s)
    (hres : Reserves f ty res g) : S.Spills res := by
  intro offset hoffset
  have hapart := hres.apart offset hoffset
  have hlow := h.low
  omega

/-! ## Following -/

def Yields (S : Hosted) (expr : Expr) (f : Frame) (target : Reservation) (m s : State)
    (visits : List Visit) (t : State) : Prop :=
  ∃ v m', S.Evaluates expr m visits v m' ∧ S.Mirrors m' t ∧
    Lands f expr.containsCalls everywhere target v s t

/-- Whatever the target, lowering the expression yields code that follows an evaluation of it. -/
def Follows (S : Hosted) (expr : Expr) : Prop :=
  ∀ ⦃target σ τ code f fs m s past⦄, (expr.lower target).run σ = (.ok code, τ) →
    σ.frames = f :: fs → S.setting.After τ → target.Fits f → S.Spills target → S.Before f m s →
    Code.Traces S.host code past s (S.Yields expr f target m s)

theorem Before.finish {expr : Expr} {code : Code} (hbefore : S.Before f m s)
    (hfits : target.Fits f) (hspills : S.Spills target)
    (hcode : Code.Ensures (Code.alone S.host.symbol) code t (Leaves target v target.Touches t))
    (hevaluates : S.Evaluates expr m visits v m') (hmirrors : S.Mirrors m' t)
    (honly : ChangesOnly (fun reg => target.location = .reg reg ∨ f.Clobbers expr.containsCalls reg)
      (Scratch (s.regs .framePointer) f.position everywhere) s t) :
    Code.Traces S.host code past t fun visits' u =>
      S.Yields expr f target m s (visits ++ visits') u := by
  have hfp : t.regs .framePointer = S.framePointer := by
    refine (honly.reg _ fun h => ?_).trans hbefore.framePointer
    exact h.elim hfits.receives.1 (Frame.not_clobbers_framePointer _ _)
  refine Code.traces_of_ensures hcode fun u hu => ⟨v, m', ?_, ?_, hu.lands hfits honly⟩
  · rwa [List.append_nil]
  · exact hmirrors.of_leaves hbefore hfits hspills hfp hu

theorem Before.leaf {expr : Expr} {code : Code} (hbefore : S.Before f m s) (hfits : target.Fits f)
    (hspills : S.Spills target)
    (hcode : Code.Ensures (Code.alone S.host.symbol) code s (Leaves target v target.Touches s))
    (hevaluates : S.Evaluates expr m [] v m) :
    Code.Traces S.host code past s (S.Yields expr f target m s) :=
  hbefore.finish hfits hspills hcode hevaluates hbefore.mirrors (.refl _ _ s)

structure Waits (S : Hosted) (expr : Expr) (ty : Ty) (res : Reservation) (f g : Frame) (m s : State)
    (visits : List Visit) (v : Word) (m' t : State) : Prop where
  evaluates : S.Evaluates expr m visits v m'
  keeps : ty.Keeps v (t.read res)
  before : S.Before g m' t
  only : ChangesOnly (f.Clobbers expr.containsCalls)
    (Scratch (s.regs .framePointer) f.position everywhere) s t

theorem Follows.temp {expr : Expr} {ty : Ty} {res : Reservation} {code : Code}
    (hexpr : S.Follows expr) (hfree : expr.arrayFree = true)
    (hreserve : (onFrame (Frame.reserveTemp ty)).run σ = (.ok res, σ₁))
    (hcode : (expr.lower res).run σ₁ = (.ok code, σ₂)) (hf : σ.frames = f :: fs)
    (hafter : S.setting.After σ₂) (hbefore : S.Before f m s) :
    ∃ g, σ₂.frames = g :: fs ∧ Reserves f ty res g ∧ g.position ≤ S.extent ∧
      Code.Traces S.host code past s fun visits t =>
        ∃ v m', S.Waits expr ty res f g m s visits v m' t := by
  obtain ⟨f₁, hf₁, hrun⟩ := (onFrame_ok hreserve).1.frames hf
  obtain ⟨g, hg, hrest⟩ := (Expr.lower_rests hfree hcode).frames hf₁
  have hres := Reserves.of_run hrun
  have hresg := hres.mono (.refl f) hrest.within
  have hpeak : g.highWater ≤ S.extent := hafter.peak hg
  have hhigh := hrest.highWater
  have hposition := hrest.position
  have hmax := (Frame.reserveTemp_highWater hrun).2
  have hle := hbefore.position
  have hlt := S.extent_lt
  have hg' : g.position ≤ S.extent := by omega
  have heverywhere : g.position ≤ everywhere := Nat.le_trans hg' S.setting.extent_le
  refine ⟨g, hg, hresg, hg', ?_⟩
  have hbefore₁ : S.Before f₁ m s :=
    hbefore.of_only hres.within (by omega) id id (.refl (fun _ => False) (fun _ => False) s)
      hbefore.mirrors
  refine (hexpr hcode hf₁ hafter hres.fits (hbefore.spills hres) hbefore₁).mono
    fun visits t ⟨v, m', hevaluates, hmirrors, hlands⟩ => ?_
  have honly := hres.only (by omega) (by decide) hlands
  refine ⟨v, m', hevaluates, ?_, ?_, honly⟩
  · rw [hlands.read, ← hres.ty]
    exact res.keeps v
  · exact hbefore.of_only hresg.within hg' (Frame.not_clobbers_framePointer _ _)
      (Frame.not_clobbers_stackPointer _ _) honly hmirrors

/-! ## Forms of expressions -/

theorem follows_literal (value : Literal) (ty : Ty) : S.Follows (.literal value ty) := by
  intro target σ τ code f fs m s past h hf hafter hfits hspills hbefore
  obtain ⟨hcode, rfl⟩ := Lower.lift_run h
  exact hbefore.leaf hfits hspills ((Code.ensures_putConstant hcode).mono fun _ => Code.Put.leaves)
    (.literal value ty m)

theorem follows_empty (ty : Ty) : S.Follows (.empty ty) := by
  intro target σ τ code f fs m s past h hf hafter hfits hspills hbefore
  cases h
  have hleaves : Leaves target (s.read target) target.Touches s s :=
    ⟨(target.keep_read s).symm, .refl _ _ s⟩
  exact hbefore.leaf hfits hspills hleaves (.empty ty m _)

theorem follows_var (name : String) (ty : Ty) : S.Follows (.var name ty) := by
  intro target σ τ code f fs m s past h hf hafter hfits hspills hbefore
  obtain ⟨slot, σ₁, hslot, h₁⟩ := StepM.run_bind_eq_ok.mp h
  obtain ⟨hcopy, rfl⟩ := Lower.lift_run h₁
  obtain ⟨f', fs', g, hf', hresolve, -⟩ := (onFrame_ok hslot).2
  cases hf.symm.trans hf'
  obtain ⟨hlookup, -⟩ := Frame.resolve_ok hresolve
  rw [hbefore.symbols] at hlookup
  by_cases hsame : slot.reservation.location = target.location
  · -- The slot of the variable has been handed out again as the target, and no code is needed.
    have hnil : code = [] := by
      simp only [Code.copy, Reservation.sameStorage, hsame, beq_self_eq_true, if_true] at hcopy
      cases hcopy
      rfl
    subst hnil
    have hleaves : Leaves target (s.read target) target.Touches s s :=
      ⟨(target.keep_read s).symm, .refl _ _ s⟩
    have hspill : S.Spill (S.framePointer - .ofNat 64 slot.offset) := by
      refine hbefore.covers hfits hspills ?_
      simp only [Reservation.Covers, ← hsame, Slot.reservation, slot.eval_offset, BitVec.sub_self]
      exact Width.bytes_pos _
    refine hbefore.leaf hfits hspills hleaves (.var hlookup (fun hout => absurd hspill ?_) ty)
    refine hout _ ?_
    rw [BitVec.sub_self]
    exact Width.bytes_pos _
  · have hne : ∀ offset, slot.reservation.location = .slot offset →
        target.location ≠ .slot offset := fun offset ho ht => hsame (ho.trans ht.symm)
    refine hbefore.leaf hfits hspills
      ((Code.ensures_copy hcopy hfits.receives.1 hne).mono fun _ => Code.Put.leaves)
      (.var hlookup ?_ ty)
    have hread : s.read slot.reservation =
        s.load slot.ty.width (S.framePointer - .ofNat 64 slot.offset) := by
      rw [← hbefore.framePointer, ← slot.eval_offset]
      rfl
    exact hread ▸ hbefore.mirrors.reads _ _

/-! ### Unary operators -/

theorem Follows.operand {op : UnOp} {operand : Expr} {code : Code} (hoperand : S.Follows operand)
    (hfree : operand.arrayFree = true)
    (h : (Lower.unary op target operand.operand).run σ = (.ok code, τ)) (hf : σ.frames = f :: fs)
    (hafter : S.setting.After τ) (hfits : target.Fits f) (hbefore : S.Before f m s) :
    ∃ res operandCode opCode, code = operandCode ++ opCode ∧ res.ty = operand.ty ∧
      op.code target res = .ok opCode ∧
      Code.Traces S.host operandCode past s fun visits t => ∃ a m',
        S.Evaluates operand m visits a m' ∧ operand.ty.Keeps a (t.read res) ∧ S.Mirrors m' t ∧
        ChangesOnly (fun reg => target.location = .reg reg ∨ f.Clobbers operand.containsCalls reg)
          (Scratch (s.regs .framePointer) f.position everywhere) s t := by
  obtain ⟨-, ⟨reg, hreg, operandCode, opCode, hcode, hop, rfl⟩ |
    ⟨-, res, operandCode, opCode, σ₁, σ₂, hres, hcode, hop, hrelease, rfl⟩⟩ := Lower.unary_ok h
  · have hloc : target.location = .reg reg := by
      obtain ⟨location, ty⟩ := target
      cases location <;> simp_all [Reservation.register?]
    refine ⟨_, operandCode, opCode, rfl, rfl, hop, ?_⟩
    have hfits' : Reservation.Fits (.ofReg operand.ty reg) f := by
      simp only [Reservation.Fits, hloc] at hfits
      exact hfits
    refine (hoperand hcode hf hafter hfits' (S.spills_ofReg _ _) hbefore).mono fun visits t ht => ?_
    obtain ⟨a, m', hevaluates, hmirrors, hlands⟩ := ht
    refine ⟨a, m', hevaluates, ?_, hmirrors, ?_⟩
    · rw [hlands.read]
      exact Or.inl rfl
    · refine hlands.only.mono (fun other hother => hother.imp_left fun h => ?_) fun a ha => ?_
      · exact hloc.trans h
      · exact ha.resolve_left id
  · obtain ⟨g, -, hreserves, -, htraces⟩ :=
      hoperand.temp hfree hres hcode hf (hafter.of_releaseTemp hrelease) hbefore
    refine ⟨res, operandCode, opCode, rfl, hreserves.ty, hop, htraces.mono fun visits t ht => ?_⟩
    obtain ⟨a, m', hwaits⟩ := ht
    exact ⟨a, m', hwaits.evaluates, hwaits.keeps, hwaits.before.mirrors,
      hwaits.only.mono (fun _ => Or.inr) fun _ => id⟩

theorem follows_unary {op : UnOp} {operand : Expr} (hoperand : S.Follows operand)
    (hfree : operand.arrayFree = true) (haddr : op ≠ .addrOf) (hderef : op ≠ .deref) (ty : Ty) :
    S.Follows (.unary op operand ty) := by
  intro target σ τ code f fs m s past h hf hafter hfits hspills hbefore
  simp only [Expr.lower, if_neg haddr] at h
  obtain ⟨res, operandCode, opCode, rfl, hty, hop, htraces⟩ :=
    hoperand.operand hfree h hf hafter hfits hbefore
  refine htraces.append fun visits t ht => ?_
  obtain ⟨a, m', hevaluates, hkeeps, hmirrors, honly⟩ := ht
  have hcode := UnOp.ensures_code (w := Code.alone S.host.symbol) (s := t) hop hfits.receives hderef
  rw [hty] at hcode
  exact hbefore.finish hfits hspills hcode (.unary haddr hderef hevaluates hkeeps ty) hmirrors honly

theorem Follows.through {pointer : Expr} (expr : Expr) (hpointer : S.Follows pointer)
    (hfree : pointer.arrayFree = true) (hcalls : expr.containsCalls = pointer.containsCalls)
    (hexpr : ∀ {m m' visits a kept v}, S.Evaluates pointer m visits a m' →
      pointer.ty.Keeps a kept → S.Reads m' (UnOp.deref.result pointer.ty).width kept v →
      S.Evaluates expr m visits v m')
    {code : Code} (h : (Lower.unary .deref target pointer.operand).run σ = (.ok code, τ))
    (hf : σ.frames = f :: fs) (hafter : S.setting.After τ) (hfits : target.Fits f)
    (hspills : S.Spills target) (hbefore : S.Before f m s) :
    Code.Traces S.host code past s (S.Yields expr f target m s) := by
  obtain ⟨res, operandCode, opCode, rfl, hty, hop, htraces⟩ :=
    hpointer.operand hfree h hf hafter hfits hbefore
  refine htraces.append fun visits t ht => ?_
  obtain ⟨a, m', hevaluates, hkeeps, hmirrors, honly⟩ := ht
  have hcode := UnOp.ensures_deref (w := Code.alone S.host.symbol) (s := t) hop hfits.receives
  rw [hty] at hcode
  exact hbefore.finish hfits hspills hcode (hexpr hevaluates hkeeps (hmirrors.reads _ _)) hmirrors
    (hcalls ▸ honly)

theorem follows_deref {pointer : Expr} (hpointer : S.Follows pointer)
    (hfree : pointer.arrayFree = true) (ty : Ty) :
    S.Follows (.deref pointer ty) ∧ S.Follows (.unary .deref pointer ty) :=
  ⟨fun _ _ _ _ _ _ _ _ _ h => hpointer.through (.deref pointer ty) hfree rfl (.deref · · · ty) h,
    fun _ _ _ _ _ _ _ _ _ h => hpointer.through (.unary .deref pointer ty) hfree rfl (.load · · · ty) h⟩

/-! ### Addresses -/

theorem follows_address (operand : Expr) (ty : Ty) : S.Follows (.unary .addrOf operand ty) := by
  intro target σ τ code f fs m s past h hf hafter hfits hspills hbefore
  simp only [Expr.lower, if_true] at h
  obtain ⟨name, ty', slot, rfl, hslot, haddress⟩ := Lower.addressOf_ok h
  obtain ⟨f', fs', g, hf', hresolve, -⟩ := (onFrame_ok hslot).2
  cases hf.symm.trans hf'
  obtain ⟨hlookup, -⟩ := Frame.resolve_ok hresolve
  rw [hbefore.symbols] at hlookup
  refine hbefore.leaf hfits hspills
    (Lower.ensures_address_leaves haddress hfits.receives fun reg hreg Q => ?_)
    (.addressOf hlookup ty' ty m)
  rw [Code.ensures_frameAddress hreg, Slot.eval_offset, hbefore.framePointer]

theorem follows_str (text : String) (ty : Ty) : S.Follows (.str text ty) := by
  intro target σ τ code f fs m s past h hf hafter hfits hspills hbefore
  obtain ⟨label, hlabel, haddress⟩ := Lower.string_ok h
  obtain ⟨-, id, rfl, htext⟩ := Session.intern_ok hlabel
  refine hbefore.leaf hfits hspills
    (Lower.ensures_address_leaves haddress hfits.receives fun reg _ Q => ?_) (.str text ty m)
  have hsymbol : S.host.symbol (.datum .string id) = S.text text := hafter.texts htext
  rw [Code.ensures_labelAddress, ← hsymbol]
  rfl

/-! ### Binary operators -/

theorem follows_binary {op : BinOp} {lhs rhs : Expr} (hl : S.Follows lhs) (hr : S.Follows rhs)
    (hfl : lhs.arrayFree = true) (hfr : rhs.arrayFree = true) (ty : Ty) :
    S.Follows (.binary op lhs rhs ty) := by
  intro target σ τ code f fs m s past h hf hafter hfits hspills hbefore
  obtain ⟨left, leftCode, right, rightCode, opCode, σ₁, σ₂, σ₃, σ₄, σ₅, hleft, hleftCode, hright,
    hrightCode, hop, hrelease, hrelease', -, rfl⟩ := Lower.binary_ok h
  have hafter₄ := (hafter.of_releaseTemp hrelease').of_releaseTemp hrelease
  have hafter₂ := (hafter₄.of_lower hrightCode).of_reserveTemp hright
  obtain ⟨g₂, hg₂, hresl, hpos₂, htracesl⟩ := hl.temp hfl hleft hleftCode hf hafter₂ hbefore
  rw [List.append_assoc]
  refine htracesl.append fun visits t₁ ⟨a, m₁, hwaitsl⟩ => ?_
  obtain ⟨g₄, hg₄, hresr, hpos₄, htracesr⟩ :=
    hr.temp hfr hright hrightCode hg₂ hafter₄ hwaitsl.before
  refine htracesr.append fun visits' t₂ ⟨b, m₂, hwaitsr⟩ => ?_
  have hlt := S.extent_lt
  have hreadl : t₂.read left = t₁.read left := hresl.read_eq (by omega) hwaitsr.only
  have hcode := BinOp.ensures_code (w := Code.alone S.host.symbol) (s := t₂) hop hfits.receives
    (hresr.ne_staging (hfits.within hresl.within))
  rw [hreadl, hresl.ty, hresr.ty] at hcode
  simp only [← List.append_assoc]
  refine hbefore.finish hfits hspills hcode
    (.binary hwaitsl.evaluates hwaitsl.keeps hwaitsr.evaluates hwaitsr.keeps) hwaitsr.before.mirrors ?_
  have hfp := hwaitsl.only.reg _ (Frame.not_clobbers_framePointer _ _)
  have honlyr := hwaitsr.only
  rw [hfp] at honlyr
  refine (hwaitsl.only.mono (fun _ hreg => Or.inr (hreg.mono fun h => ?_)) fun _ => id).trans
    (honlyr.mono (fun _ hreg => Or.inr ((hresl.within.clobbers hreg).mono fun h => ?_))
      fun _ hmem => hmem.mono hresl.within.position (Nat.le_refl _))
  · simp only [Expr.containsCalls, h, Bool.true_or]
  · simp only [Expr.containsCalls, h, Bool.or_true]

end Hosted

end ArmBackend
