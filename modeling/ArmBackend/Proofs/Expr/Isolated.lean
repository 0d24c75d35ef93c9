import ArmBackend.Proofs.Expr.Call
import ArmBackend.Proofs.Machine.Trace
import Mathlib.Data.List.Pairwise

/-!
# Expressions in any frame

The code of an expression without calls, run on its own: it leaves the expression's value in its target
and leaves alone whatever else a function body keeps in registers and slots.
-/

namespace ArmBackend

namespace Frame

/-! ## What a frame says about expressions -/

instance (fp : Word) (low high : Nat) (a : Word) : Decidable (Scratch fp low high a) :=
  inferInstanceAs (Decidable (_ ∧ _))

/-- The values that expressions have in a state. A variable has one under the type of its slot while
it is live. Memory is not read where it is free and the code may use it itself, down to `high` bytes
below the frame pointer. -/
def context (f : Frame) (data : StaticData) (high : Nat) (symbol : Label → Word) (s : State) :
    Context where
  value name ty :=
    (f.symbols.lookup name).bind fun slot =>
      if slot ∈ f.locals ∧ slot.ty = ty then some (s.read slot.reservation) else none
  address name :=
    (f.symbols.lookup name).map fun slot => s.regs .framePointer - BitVec.ofNat 64 slot.offset
  load width a :=
    if ∀ i < width.bytes, ¬ Scratch (s.regs .framePointer) f.position high (a + BitVec.ofNat 64 i)
    then some (s.load width a) else none
  text text := symbol (data.intern text).1
  call _ _ := none

/-- The targets of a lowering: an argument register, x16, a live temporary, or a live variable. -/
def Offers (f : Frame) (target : Reservation) : Prop :=
  (∃ reg, target.location = .reg reg ∧ (reg ∈ Register.argBank ∨ reg = .staging)) ∨
    target ∈ f.temporaries ∨ ∃ slot ∈ f.locals, target = slot.reservation

variable {f : Frame}

theorem mem_slots_of_temporary {slot : Slot} (h : slot.reservation ∈ f.temporaries) :
    slot ∈ f.slots :=
  List.mem_append_left _ (List.mem_filterMap.mpr ⟨_, h, slot.slot?_reservation⟩)

theorem Valid.temporary (hf : Valid f) {res : Reservation} (h : res ∈ f.temporaries) :
    (∃ reg, res.location = .reg reg ∧ reg ∈ Register.tempBank ∧ f.liveRegs.contains reg = true) ∨
      ∃ slot ∈ f.slots, res = slot.reservation := by
  obtain ⟨location, ty⟩ := res
  obtain ⟨-, ⟨reg, rfl⟩ | ⟨offset, rfl⟩⟩ := hf.assigned _ h
  · have hmem : reg ∈ f.tempRegs := List.mem_filterMap.mpr ⟨_, h, rfl⟩
    exact Or.inl ⟨reg, rfl, hf.bank reg hmem, (hf.live reg).mpr hmem⟩
  · exact Or.inr ⟨⟨offset, ty⟩, mem_slots_of_temporary h, rfl⟩

theorem Offers.cases (hf : Valid f) {target : Reservation} (h : f.Offers target) :
    (∃ reg, target.location = .reg reg ∧
        (reg ∈ Register.argBank ∨ reg = .staging ∨ target ∈ f.temporaries)) ∨
      ∃ slot ∈ f.slots, target = slot.reservation := by
  rcases h with ⟨reg, hloc, hreg⟩ | h | ⟨slot, hslot, rfl⟩
  · exact Or.inl ⟨reg, hloc, hreg.imp_right Or.inl⟩
  · rcases hf.temporary h with ⟨reg, hloc, -⟩ | hslot
    · exact Or.inl ⟨reg, hloc, Or.inr (Or.inr h)⟩
    · exact Or.inr hslot
  · exact Or.inr ⟨slot, mem_slots_of_local hslot, rfl⟩

theorem Offers.fits (hf : Valid f) {target : Reservation} (h : f.Offers target) :
    target.Fits f := by
  rcases h.cases hf with ⟨reg, hloc, hreg⟩ | ⟨slot, hslot, rfl⟩
  · simp only [Reservation.Fits, hloc]
    rcases hreg with harg | rfl | htemp
    · obtain ⟨index, rfl⟩ := Register.mem_argBank.mp harg
      refine ⟨by simp [Register.reserved, Register.operand], fun hbank => ?_⟩
      simp [Register.mem_tempBank] at hbank
    · refine ⟨by decide, fun hbank => ?_⟩
      simp [Register.mem_tempBank, Register.staging] at hbank
    · rcases hf.temporary htemp with ⟨reg', hloc', hbank, hlive⟩ | ⟨slot, -, rfl⟩
      · cases hloc.symm.trans hloc'
        refine ⟨?_, fun _ => hlive⟩
        rcases Register.mem_tempBank.mp hbank with rfl | ⟨index, rfl⟩ <;>
          simp [Register.reserved, Register.operand]
      · cases hloc
  · obtain ⟨hsize, hle, hposition⟩ := hf.stacked.bounds slot hslot
    exact ⟨slot.offset, rfl, hsize, hle, hposition⟩

variable {data : StaticData} {high : Nat} {symbol : Label → Word} {s : State}

theorem context_value {name : String} {ty : Ty} {v : Word}
    (h : (f.context data high symbol s).value name ty = some v) :
    ∃ slot ∈ f.locals, f.symbols.lookup name = some slot ∧ slot.ty = ty ∧
      s.read slot.reservation = v := by
  obtain ⟨slot, hlookup, hif⟩ := Option.bind_eq_some_iff.mp h
  split at hif
  case isTrue hslot =>
    cases hif
    exact ⟨slot, hslot.1, hlookup, hslot.2, rfl⟩
  case isFalse => cases hif

theorem context_typed : (f.context data high symbol s).Typed where
  value := fun {name ty v} h => by
    obtain ⟨slot, -, -, rfl, rfl⟩ := context_value h
    exact slot.reservation.keep_read s
  load := fun {width a v} h => by
    simp only [context] at h
    split at h <;> cases h
    exact s.low_load width a

theorem context_agrees (hf : Valid f) : (f.context data high symbol s).Agrees f high s where
  value := fun {name ty v} h => by
    obtain ⟨slot, hslot, hlookup, -, hread⟩ := context_value h
    obtain ⟨hsize, hle, hposition⟩ := hf.stacked.bounds slot (mem_slots_of_local hslot)
    exact ⟨slot, hlookup, hsize, hle, hposition, hread⟩
  address := fun {name a} h => by
    obtain ⟨slot, hlookup, rfl⟩ := Option.map_eq_some_iff.mp h
    exact ⟨slot, hlookup, rfl⟩
  load := fun {width a v} h => by
    simp only [context] at h
    split at h
    case isTrue hout =>
      cases h
      refine ⟨rfl, fun b hb => ?_⟩
      have heq : a + BitVec.ofNat 64 (b - a).toNat = b := by
        rw [BitVec.ofNat_toNat, BitVec.setWidth_eq, BitVec.add_comm, BitVec.sub_add_cancel]
      exact heq ▸ hout (b - a).toNat hb
    case isFalse => cases h

theorem context_texts (w : World) (h : w.symbol = symbol) :
    (f.context data high symbol s).Texts w data := by
  intro text id htext
  simp only [h, context, StaticData.intern, htext]

theorem Offers.admits (hf : Valid f) {target : Reservation} (h : f.Offers target) {expr : Expr}
    {v : Word} (hv : expr.eval (f.context data high symbol s) = some v) : expr.Admits f target := by
  cases expr with
  | var name ty =>
    intro slot hlookup hloc
    obtain ⟨slot', hslot', hlookup', -, -⟩ := context_value hv
    cases hlookup.symm.trans hlookup'
    rcases h.cases hf with ⟨reg, hreg, -⟩ | ⟨other, hother, rfl⟩
    · cases hloc.trans hreg
    · have hoffset : slot.offset = other.offset := by
        have := Location.slot.inj hloc
        omega
      rw [hf.eq_of_offset (mem_slots_of_local hslot') hother hoffset]
  | _ => trivial

/-! ## What stays -/

/-- The states agree in everything that a function body keeps, apart from the target. -/
structure Untouched (f : Frame) (high : Nat) (target : Reservation) (s t : State) : Prop where
  temporaries : ∀ res ∈ f.temporaries, res ≠ target → t.read res = s.read res
  slots : ∀ slot ∈ f.locals, slot.reservation ≠ target →
    t.read slot.reservation = s.read slot.reservation
  arguments : ∀ reg ∈ Register.argBank, target.location ≠ .reg reg → t.regs reg = s.regs reg
  stackPointer : t.regs .stackPointer = s.regs .stackPointer
  framePointer : t.regs .framePointer = s.regs .framePointer
  /-- Memory changes in the target, and beyond the position of the frame. -/
  memory : ∀ a, ¬ target.Covers (s.regs .framePointer) a →
    ¬ Scratch (s.regs .framePointer) f.position high a → t.mem a = s.mem a

theorem Valid.ne_register (hf : Valid f) {a b : Reservation} (ha : a ∈ f.temporaries)
    (hb : b ∈ f.temporaries) (hne : a ≠ b) {reg : Register} (hreg : a.location = .reg reg) :
    b.location ≠ .reg reg := by
  have hpair := List.pairwise_filterMap.mp hf.nodup
  have : Std.Symm fun a b : Reservation => ∀ x, a.register? = some x →
      ∀ y, b.register? = some y → x ≠ y := ⟨fun a b h x hx y hy heq => h y hy x hx heq.symm⟩
  have hregs := hpair.forall ha hb hne
  intro hreg'
  refine hregs reg ?_ reg ?_ rfl
  · simp only [Reservation.register?, hreg]
  · simp only [Reservation.register?, hreg']

section

variable {target : Reservation} {calls : Bool} {v : Word} {t : State}

theorem Lands.read_slot (hf : Valid f) (htarget : f.Offers target) (hlt : f.position < 2 ^ 64)
    (h : Lands f calls high target v s t) {slot : Slot} (hslot : slot ∈ f.slots)
    (hne : slot.reservation ≠ target) : t.read slot.reservation = s.read slot.reservation := by
  have hfits := htarget.fits hf
  obtain ⟨hsize, hle, hposition⟩ := hf.stacked.bounds slot hslot
  refine h.only.read_eq ?_ (fun reg hreg => by cases hreg) fun a ha hmem => ?_
  · exact fun hreg => hreg.elim hfits.receives.1 (not_clobbers_framePointer _ _)
  have hcovers := (Slot.covers_iff hsize hle (by omega)).mp ha
  rcases hmem with hmem | hmem
  · rcases htarget.cases hf with ⟨reg, hreg, -⟩ | ⟨other, hother, rfl⟩
    · simp only [Reservation.Covers, hreg] at hmem
    · obtain ⟨hsize', hle', hposition'⟩ := hf.stacked.bounds other hother
      have hcovers' := (Slot.covers_iff hsize' hle' (by omega)).mp hmem
      rcases hf.stacked.disjoint hslot hother with heq | hlt' | hlt'
      · exact hne (heq ▸ rfl)
      · omega
      · omega
  · exact absurd hmem.1 (by omega)

theorem Lands.read_temporary (hf : Valid f) (htarget : f.Offers target)
    (hlt : f.position < 2 ^ 64) (h : Lands f calls high target v s t) {res : Reservation}
    (hres : res ∈ f.temporaries) (hne : res ≠ target) : t.read res = s.read res := by
  rcases hf.temporary hres with ⟨reg, hreg, hbank, hlive⟩ | ⟨slot, hmem, rfl⟩
  · have hother : target.location ≠ .reg reg := by
      intro hloc
      rcases htarget.cases hf with ⟨reg', hreg', htarg⟩ | ⟨slot, -, rfl⟩
      · cases hloc.symm.trans hreg'
        rcases htarg with harg | rfl | htemp
        · obtain ⟨index, rfl⟩ := Register.mem_argBank.mp harg
          simp [Register.mem_tempBank] at hbank
        · simp [Register.mem_tempBank, Register.staging] at hbank
        · exact hf.ne_register hres htemp hne hreg hloc
      · cases hloc
    simp only [State.read, hreg]
    exact h.only.reg _ fun hreg => hreg.elim hother (not_clobbers_live hbank hlive)
  · exact Lands.read_slot hf htarget hlt h hmem hne

theorem Lands.pointers (hf : Valid f) (htarget : f.Offers target)
    (h : Lands f calls high target v s t) :
    t.regs .stackPointer = s.regs .stackPointer ∧ t.regs .framePointer = s.regs .framePointer := by
  have hfits := htarget.fits hf
  constructor
  · refine h.only.reg _ fun hreg => hreg.elim (fun hloc => ?_) (not_clobbers_stackPointer _ _)
    simp only [Reservation.Fits, hloc] at hfits
    exact hfits.1 (by decide)
  · exact h.only.reg _ fun hreg => hreg.elim hfits.receives.1 (not_clobbers_framePointer _ _)

theorem Lands.untouched (hf : Valid f) (htarget : f.Offers target) (hlt : f.position < 2 ^ 64)
    (h : Lands f false high target v s t) : f.Untouched high target s t where
  temporaries := fun _ hres hne => Lands.read_temporary hf htarget hlt h hres hne
  slots := fun _ hslot hne => Lands.read_slot hf htarget hlt h (mem_slots_of_local hslot) hne
  arguments := fun reg harg hne => h.only.reg reg fun hreg =>
    hreg.elim hne (Setting.not_clobbers_arg harg)
  stackPointer := (Lands.pointers hf htarget h).1
  framePointer := (Lands.pointers hf htarget h).2
  memory := fun a hcovers hscratch => h.only.byte a fun hmem => hmem.elim hcovers hscratch

end

/-! ## Code on its own -/

def setting (f : Frame) (τ : Session) {high : Nat} (hlt : high < 2 ^ 64) (symbol : Label → Word)
    (s : State) : Setting where
  world := Code.alone symbol
  ctx := f.context τ.data high symbol s
  label := τ.options.functionLabel
  room := 0
  extent := high
  bound := high
  typed := context_typed
  serves := nofun
  extent_le := Nat.le_refl _
  bound_lt := hlt

theorem setting_after {g : Frame} {gs : List Frame} {τ : Session} (hτ : τ.frames = g :: gs)
    (hlt : g.highWater < 2 ^ 64) : (f.setting τ hlt symbol s).After τ where
  peak := fun hk => by
    cases hτ.symm.trans hk
    exact Nat.le_refl _
  texts := context_texts _ rfl
  label := rfl

theorem setting_before (hf : Valid f) {τ : Session} (hlt : high < 2 ^ 64)
    (hposition : f.position ≤ high) : (f.setting τ hlt symbol s).Before f false s :=
  ⟨context_agrees hf, hposition, nofun⟩

end Frame

/-! ## Expressions without calls -/

/-- The code of a checked expression without calls and arrays runs to its end. It leaves the value of
the expression in the target and everything else as it was. -/
theorem Expr.exec_lower {expr : Expr} (hbuilt : expr.Built) (hcalls : expr.containsCalls = false)
    (hfree : expr.arrayFree = true) {f g : Frame} {fs gs : List Frame} {σ τ : Session}
    {target : Reservation} {code : Code} (hf : f.Reachable) (htarget : f.Offers target)
    (hσ : σ.frames = f :: fs) (h : (expr.lower target).run σ = (.ok code, τ))
    (hτ : τ.frames = g :: gs) (hlt : g.highWater < 2 ^ 64) (symbol : Label → Word) (s : State)
    {v : Word} (hv : expr.eval (f.context τ.data g.highWater symbol s) = some v) :
    ∃ t, code.exec symbol s = some t ∧ t.read target = target.keep v ∧
      f.Untouched g.highWater target s t := by
  have hvalid := hf.valid
  have hadvance := lower_rests hfree h
  obtain ⟨g', hg', hrest⟩ := hadvance.frames hσ
  cases hτ.symm.trans hg'
  have hposition : f.position ≤ g.highWater := Nat.le_trans hvalid.highWater hrest.highWater
  have hbefore : (f.setting τ hlt symbol s).Before f false s :=
    Frame.setting_before hvalid hlt hposition
  rw [← hcalls] at hbefore
  have hlands := Setting.evaluates expr hfree hbuilt.wellTyped hv h hσ (Frame.setting_after hτ hlt)
    (htarget.fits hvalid) (htarget.admits hvalid hv) hbefore
  obtain ⟨t, ht, hlands⟩ := Code.exec_of_ensures hlands
  rw [hcalls] at hlands
  exact ⟨t, ht, hlands.read, Frame.Lands.untouched hvalid htarget (by omega) hlands⟩

/-- `x + 2` in x1, where `x` is the first variable and all memory is 0. -/
theorem Expr.exec_lower_sum :
    let sum : Expr := .binary (.arith .add) (.var "x" .int) (.literal (.int 2) .int) .int
    let start : Session :=
      { Session.start {} with frames := [Frame.Op.apply {} (.addVariable .int "x")] }
    let s : State := ⟨fun _ => 4096, fun _ => 0, Flags.compare 0 0⟩
    ∃ code t, ((sum.lower (.ofReg .int .x1)).run start).1 = .ok code ∧
      Code.exec (fun _ => 0) code s = some t ∧ t.regs .x1 = 2 := by
  intro sum start s
  have hbuilt : sum.Built := .binary (.var "x" .int) (.literal (.int 2)) rfl
  have htarget : (Frame.Op.apply {} (.addVariable .int "x")).Offers (.ofReg .int .x1) :=
    Or.inl ⟨.x1, rfl, Or.inl (by decide)⟩
  obtain ⟨t, hrun, hread, -⟩ :=
    exec_lower hbuilt rfl rfl (.apply (.addVariable .int "x") .empty) htarget
      (σ := start) (τ := ((sum.lower (.ofReg .int .x1)).run start).2)
      (g := (((sum.lower (.ofReg .int .x1)).run start).2).frames.headD {}) rfl rfl rfl (by decide)
      (fun _ => 0) s (v := 2) (by decide)
  exact ⟨_, t, rfl, hrun, hread⟩

end ArmBackend
