import ArmBackend.Proofs.Expr.Progress
import ArmBackend.Proofs.Machine.Straight

/-!
# Expressions are lowered to straight-line code

The code of an expression stores into its target, and into slots that were free when its lowering began.
-/

namespace ArmBackend

open Session (onFrame Advances onFrame_ok)
open Code (Straight)

namespace Frame

structure Rises (f g : Frame) : Prop where
  position : f.position ≤ g.position
  highWater : f.highWater ≤ g.highWater

theorem Rises.refl (f : Frame) : Rises f f := ⟨Nat.le_refl _, Nat.le_refl _⟩

theorem Rises.trans {f g h : Frame} (hfg : Rises f g) (hgh : Rises g h) : Rises f h :=
  ⟨Nat.le_trans hfg.position hgh.position, Nat.le_trans hfg.highWater hgh.highWater⟩

theorem Grows.rises {f g : Frame} (h : Grows f g) : Rises f g := ⟨h.position, h.highWater⟩

/-- Whether a slot for a value of type `ty` at `offset` can have been taken after `f` was the frame and
before `g` was. -/
def Spills (f g : Frame) (offset : Int) (ty : Ty) : Prop :=
  0 < ty.size ∧ (f.position + ty.size : Int) ≤ offset ∧ offset ≤ g.highWater

theorem Spills.mono {f f' g g' : Frame} {offset : Int} {ty : Ty} (h : Spills f' g' offset ty)
    (hf : f.position ≤ f'.position) (hg : g'.highWater ≤ g.highWater) : Spills f g offset ty :=
  ⟨h.1, by have := h.2.1; omega, by have := h.2.2; omega⟩

variable {f g : Frame} {ty : Ty}

theorem spills_withSlot (f : Frame) (hsize : 0 < ty.size) :
    Rises f (f.withSlot ty) ∧ Spills f (f.withSlot ty) ↑(f.position + f.slotSize ty) ty := by
  have hle : ty.size ≤ f.slotSize ty := Nat.le_add_left _ _
  refine ⟨⟨Nat.le_add_right _ _, Nat.le_max_left _ _⟩, hsize, by omega, ?_⟩
  exact_mod_cast Nat.le_max_right f.highWater (f.position + f.slotSize ty)

theorem reserveTemp_spills {res : Reservation} (h : (reserveTemp ty).run f = (.ok res, g)) :
    Rises f g ∧ res.Volatile ∧ ∀ offset ty, res.Occupies offset ty → Spills f g offset ty := by
  obtain ⟨hsize, ⟨reg, hbank, -, rfl, rfl⟩ | ⟨rfl, rfl⟩⟩ := reserveTemp_ok h
  · refine ⟨⟨Nat.le_refl _, Nat.le_refl _⟩, ?_, nofun⟩
    rintro _ ⟨⟩
    exact Register.volatile_of_tempBank hbank
  · obtain ⟨hrises, hspills⟩ := spills_withSlot f hsize
    refine ⟨⟨hrises.position, hrises.highWater⟩, nofun, ?_⟩
    rintro offset ty' ⟨⟩
    exact hspills

theorem reserveVariable_spills {slot : Slot} (h : (reserveVariable ty).run f = (.ok slot, g)) :
    Rises f g ∧ Spills f g slot.offset slot.ty := by
  obtain ⟨-, hsize, rfl, rfl⟩ := reserveVariable_ok h
  obtain ⟨hrises, hspills⟩ := spills_withSlot f hsize
  exact ⟨⟨hrises.position, hrises.highWater⟩, hspills⟩

end Frame

open ArmBackend.Frame (Rises Spills)

variable {calls : Prop} {σ τ : Session} {f g : Frame} {fs gs : List Frame}

structure Operand.Straight (operand : Operand) : Prop where
  keeps : operand.Keeps Frame.Grows
  code : ∀ {calls target σ code τ f fs g gs}, (operand.calls = true → calls) → σ.frames = f :: fs →
    (operand.lower target).run σ = (.ok code, τ) → τ.frames = g :: gs → target.Volatile →
    Code.Straight calls (fun offset ty => target.Occupies offset ty ∨ Spills f g offset ty) code

namespace Operand.Straight

variable {operand : Operand} {code : Code}

theorem rises (h : operand.Straight) {target : Reservation}
    (hcode : (operand.lower target).run σ = (.ok code, τ)) (hf : σ.frames = f :: fs) :
    ∃ g, τ.frames = g :: fs ∧ Rises f g := by
  obtain ⟨g, hg, hgrows⟩ := (h.keeps target hcode).frames hf
  exact ⟨g, hg, hgrows.rises⟩

theorem register (h : operand.Straight) (hcalls : operand.calls = true → calls) {ty : Ty}
    {reg : Register} (hreg : reg.Volatile)
    (hf : σ.frames = f :: fs) (hcode : (operand.lower (.ofReg ty reg)).run σ = (.ok code, τ))
    (hg : τ.frames = g :: gs) : Code.Straight calls (Spills f g) code := by
  have hvolatile : (Reservation.ofReg ty reg).Volatile := by
    rintro _ ⟨⟩
    exact hreg
  exact (h.code hcalls hf hcode hg hvolatile).mono fun _ _ hwrites => hwrites.resolve_left nofun

theorem temp (h : operand.Straight) (hcalls : operand.calls = true → calls) {ty : Ty}
    {res : Reservation} {σ₁ : Session}
    (hres : (onFrame (Frame.reserveTemp ty)).run σ = (.ok res, σ₁))
    (hcode : (operand.lower res).run σ₁ = (.ok code, τ)) (hf : σ.frames = f :: fs) :
    ∃ g, τ.frames = g :: fs ∧ Rises f g ∧ Code.Straight calls (Spills f g) code := by
  obtain ⟨f₁, hf₁, hrun⟩ := (onFrame_ok hres).1.frames hf
  obtain ⟨hrises, hvolatile, hspills⟩ := Frame.reserveTemp_spills hrun
  obtain ⟨g, hg, hrises₁⟩ := h.rises hcode hf₁
  refine ⟨g, hg, hrises.trans hrises₁, (h.code hcalls hf₁ hcode hg hvolatile).mono fun offset ty' hw => ?_⟩
  rcases hw with hw | hw
  · exact (hspills _ _ hw).mono (Nat.le_refl _) hrises₁.highWater
  · exact hw.mono hrises.position (Nat.le_refl _)

end Operand.Straight

theorem Session.releaseTemp_frames (h : (onFrame Frame.releaseTemp).run σ = (.ok (), τ))
    (hf : σ.frames = f :: fs) : ∃ g, τ.frames = g :: fs ∧ f.highWater ≤ g.highWater := by
  obtain ⟨g, hg, hrun⟩ := (onFrame_ok h).1.frames hf
  exact ⟨g, hg, Frame.releaseTemp_highWater hrun⟩

namespace Lower

variable {target : Reservation} {code : Code}

/-! ## Operators and addresses -/

theorem binary_straight {op : BinOp} {ty : Ty} {lhs rhs : Operand} (hlhs : lhs.Straight)
    (hrhs : rhs.Straight) (hl : lhs.calls = true → calls) (hr : rhs.calls = true → calls)
    (hf : σ.frames = f :: fs) (h : (binary op ty target lhs rhs).run σ = (.ok code, τ)) (hg : τ.frames = g :: gs)
    (htarget : target.Volatile) :
    Straight calls (fun offset ty => target.Occupies offset ty ∨ Spills f g offset ty) code := by
  obtain ⟨left, leftCode, right, rightCode, opCode, σ₁, σ₂, σ₃, σ₄, σ₅, hleft, hleftCode, hright,
    hrightCode, hop, hrelease, hrelease', -, rfl⟩ := binary_ok h
  obtain ⟨g₂, hg₂, hrises₂, hstraight₂⟩ := hlhs.temp hl hleft hleftCode hf
  obtain ⟨g₄, hg₄, hrises₄, hstraight₄⟩ := hrhs.temp hr hright hrightCode hg₂
  obtain ⟨g₅, hg₅, hpeak₅⟩ := Session.releaseTemp_frames hrelease hg₄
  obtain ⟨g', hg', hpeak'⟩ := Session.releaseTemp_frames hrelease' hg₅
  cases hg.symm.trans hg'
  have hpeak₄ : g₄.highWater ≤ g.highWater := Nat.le_trans hpeak₅ hpeak'
  have hpeak₂ : g₂.highWater ≤ g.highWater := Nat.le_trans hrises₄.highWater hpeak₄
  refine .append (.append ?_ ?_) ((BinOp.straight_code hop htarget).mono fun _ _ => Or.inl)
  · exact hstraight₂.mono fun _ _ hw => Or.inr (hw.mono (Nat.le_refl _) hpeak₂)
  · exact hstraight₄.mono fun _ _ hw => Or.inr (hw.mono hrises₂.position hpeak₄)

theorem unary_straight {op : UnOp} {operand : Operand} (hoperand : operand.Straight)
    (hcalls : operand.calls = true → calls) (hf : σ.frames = f :: fs)
    (h : (unary op target operand).run σ = (.ok code, τ))
    (hg : τ.frames = g :: gs) (htarget : target.Volatile) :
    Straight calls (fun offset ty => target.Occupies offset ty ∨ Spills f g offset ty) code := by
  obtain ⟨-, ⟨reg, hreg, operandCode, opCode, hcode, hop, rfl⟩ |
    ⟨-, res, operandCode, opCode, σ₁, σ₂, hres, hcode, hop, hrelease, rfl⟩⟩ := unary_ok h
  · have hvolatile : reg.Volatile := by
      obtain ⟨location, ty⟩ := target
      cases location <;> cases hreg
      exact htarget reg rfl
    refine .append ?_ ((UnOp.straight_code hop htarget).mono fun _ _ => Or.inl)
    exact (hoperand.register hcalls hvolatile hf hcode hg).mono fun _ _ => Or.inr
  · obtain ⟨g₂, hg₂, hrises₂, hstraight₂⟩ := hoperand.temp hcalls hres hcode hf
    obtain ⟨g', hg', hpeak⟩ := Session.releaseTemp_frames hrelease hg₂
    cases hg.symm.trans hg'
    refine .append ?_ ((UnOp.straight_code hop htarget).mono fun _ _ => Or.inl)
    exact hstraight₂.mono fun _ _ hw => Or.inr (hw.mono (Nat.le_refl _) hpeak)

theorem address_straight {build : Register → Code} {writes : Int → Ty → Prop}
    (h : address target build = .ok code) (htarget : target.Volatile)
    (hbuild : ∀ reg, reg.Volatile → Straight calls writes (build reg)) :
    Straight calls (fun offset ty => target.Occupies offset ty ∨ writes offset ty) code := by
  obtain ⟨copyCode, hcopy, rfl⟩ := address_ok h
  refine .append ((hbuild _ htarget.staging).mono fun _ _ => Or.inr) ?_
  exact (Code.straight_copy hcopy htarget).mono fun _ _ => Or.inl

/-! ## Arrays -/

theorem reserveElements_spills {ty : Ty} {count : Nat} {slots slots' : List Slot}
    (h : (reserveElements ty count slots).run σ = (.ok slots', τ)) (hf : σ.frames = f :: fs) :
    ∃ g, τ.frames = g :: fs ∧ Rises f g ∧
      ∀ slot ∈ slots', slot ∈ slots ∨ Spills f g slot.offset slot.ty := by
  induction count generalizing slots σ f with
  | zero =>
    cases h
    exact ⟨f, hf, .refl f, fun _ => Or.inl⟩
  | succ count ih =>
    obtain ⟨slot, σ₁, hslot, h₁⟩ := StepM.run_bind_eq_ok.mp h
    obtain ⟨f₁, hf₁, hrun⟩ := (onFrame_ok hslot).1.frames hf
    obtain ⟨hrises, hspills⟩ := Frame.reserveVariable_spills hrun
    obtain ⟨g, hg, hrises₁, hslots⟩ := ih h₁ hf₁
    refine ⟨g, hg, hrises.trans hrises₁, fun other hother => ?_⟩
    rcases hslots other hother with hmem | hother
    · rcases List.mem_cons.mp hmem with rfl | hmem
      · exact Or.inr (hspills.mono (Nat.le_refl _) hrises₁.highWater)
      · exact Or.inl hmem
    · exact Or.inr (hother.mono hrises.position (Nat.le_refl _))

theorem elements_straight {slots : List Slot} {operands : List Operand} {f₀ : Frame}
    (hoperands : ∀ operand ∈ operands, operand.Straight)
    (hcalls : ∀ operand ∈ operands, operand.calls = true → calls) (hf₀ : Rises f₀ f)
    (hslots : ∀ slot ∈ slots, Spills f₀ f slot.offset slot.ty) (hf : σ.frames = f :: fs)
    (h : (elements slots operands).run σ = (.ok code, τ)) (hg : τ.frames = g :: gs) :
    Straight calls (Spills f₀ g) code := by
  induction slots generalizing operands σ f code with
  | nil =>
    simp only [elements] at h
    cases h
    exact .nil
  | cons slot slots ih =>
    cases operands with
    | nil =>
      cases h
      exact .nil
    | cons operand operands =>
      obtain ⟨elementCode, σ₁, helement, h₁⟩ := StepM.run_bind_eq_ok.mp h
      obtain ⟨restCode, σ₂, hrest, h₂⟩ := StepM.run_bind_eq_ok.mp h₁
      cases h₂
      have hoperand := hoperands operand List.mem_cons_self
      have hothers : ∀ operand ∈ operands, operand.Straight := fun other hother =>
        hoperands other (List.mem_cons_of_mem _ hother)
      obtain ⟨f₁, hf₁, hrises₁⟩ := hoperand.rises helement hf
      obtain ⟨g', hg', hgrows⟩ := (elements_advances Frame.growth_grows
        (fun other hother => (hothers other hother).keeps) hrest).frames hf₁
      cases hg.symm.trans hg'
      have hslot := hslots slot List.mem_cons_self
      have hrest := ih hothers (fun other hother => hcalls other (List.mem_cons_of_mem _ hother))
        (hf₀.trans hrises₁) (fun other hother =>
        (hslots other (List.mem_cons_of_mem _ hother)).mono (Nat.le_refl _) hrises₁.highWater)
        hf₁ hrest
      refine .append ((hoperand.code (hcalls operand List.mem_cons_self) hf helement hf₁
        (by rintro _ ⟨⟩)).mono fun offset ty hw => ?_) hrest
      rcases hw with hw | hw
      · cases hw
        exact hslot.mono (Nat.le_refl _) (Nat.le_trans hrises₁.highWater hgrows.highWater)
      · exact hw.mono hf₀.position hgrows.highWater

theorem array_straight {ty : Ty} {operands : List Operand}
    (hoperands : ∀ operand ∈ operands, operand.Straight)
    (hcalls : ∀ operand ∈ operands, operand.calls = true → calls) (hf : σ.frames = f :: fs)
    (h : (array ty target operands).run σ = (.ok code, τ)) (hg : τ.frames = g :: gs)
    (htarget : target.Volatile) :
    Straight calls (fun offset ty => target.Occupies offset ty ∨ Spills f g offset ty) code := by
  obtain ⟨elementTy, first, slots, elementsCode, addressCode, σ₁, -, hslots, hcode, haddress, rfl⟩ :=
    array_ok h
  obtain ⟨f₁, hf₁, hrises, hspills⟩ := reserveElements_spills hslots hf
  have hall : ∀ slot ∈ first :: slots, Spills f f₁ slot.offset slot.ty := fun slot hslot =>
    (hspills slot hslot).resolve_left nofun
  refine .append ?_ (address_straight haddress htarget fun reg hreg => ?_)
  · exact (elements_straight hoperands hcalls hrises hall hf₁ hcode hg).mono fun _ _ => Or.inr
  · exact Code.straight_frameAddress hreg _

/-! ## Calls -/

theorem shield_straight {args : List Operand} {regs : List Register}
    {shielded : List (Reservation × Register)} (hargs : ∀ arg ∈ args, arg.Straight)
    (hcalls : ∀ arg ∈ args, arg.calls = true → calls) (hf : σ.frames = f :: fs)
    (h : (shield args regs).run σ = (.ok (code, shielded), τ)) :
    ∃ g, τ.frames = g :: fs ∧ Rises f g ∧ Straight calls (Spills f g) code ∧
      ∀ p ∈ shielded, p.2 ∈ regs := by
  induction args generalizing regs σ f code shielded with
  | nil =>
    simp only [shield] at h
    cases h
    exact ⟨f, hf, .refl f, .nil, List.forall_mem_nil _⟩
  | cons arg args ih =>
    have hrest : ∀ arg ∈ args, arg.Straight := fun other hother =>
      hargs other (List.mem_cons_of_mem _ hother)
    have hcalls' : ∀ arg ∈ args, arg.calls = true → calls := fun other hother =>
      hcalls other (List.mem_cons_of_mem _ hother)
    cases regs with
    | nil =>
      cases h
      exact ⟨f, hf, .refl f, .nil, List.forall_mem_nil _⟩
    | cons reg regs =>
      cases hcall : arg.calls with
      | true =>
        obtain ⟨res, argCode, restCode, shielded', σ₁, σ₂, hres, hcode, htail, heq⟩ :=
          shield_calls_ok hcall h
        cases heq
        obtain ⟨f₁, hf₁, hrises₁, hstraight₁⟩ :=
          (hargs arg List.mem_cons_self).temp (hcalls arg List.mem_cons_self) hres hcode hf
        obtain ⟨g, hg, hrises, hstraight, hregs⟩ := ih hrest hcalls' hf₁ htail
        refine ⟨g, hg, hrises₁.trans hrises, .append ?_ ?_, fun p hp => ?_⟩
        · exact hstraight₁.mono fun _ _ hw => hw.mono (Nat.le_refl _) hrises.highWater
        · exact hstraight.mono fun _ _ hw => hw.mono hrises₁.position (Nat.le_refl _)
        · rcases List.mem_cons.mp hp with rfl | hp
          · exact List.mem_cons_self
          · exact List.mem_cons_of_mem _ (hregs p hp)
      | false =>
        rw [shield_quiet args reg regs hcall] at h
        obtain ⟨g, hg, hrises, hstraight, hregs⟩ := ih hrest hcalls' hf h
        exact ⟨g, hg, hrises, hstraight, fun p hp => List.mem_cons_of_mem _ (hregs p hp)⟩

theorem direct_straight {args : List Operand} {regs : List Register}
    (hargs : ∀ arg ∈ args, arg.Straight) (hcalls : ∀ arg ∈ args, arg.calls = true → calls)
    (hregs : ∀ reg ∈ regs, reg.Volatile) (hf : σ.frames = f :: fs) (h : (direct args regs).run σ = (.ok code, τ)) :
    ∃ g, τ.frames = g :: fs ∧ Rises f g ∧ Straight calls (Spills f g) code := by
  induction args generalizing regs σ f code with
  | nil =>
    simp only [direct] at h
    cases h
    exact ⟨f, hf, .refl f, .nil⟩
  | cons arg args ih =>
    have hrest : ∀ arg ∈ args, arg.Straight := fun other hother =>
      hargs other (List.mem_cons_of_mem _ hother)
    have hcalls' : ∀ arg ∈ args, arg.calls = true → calls := fun other hother =>
      hcalls other (List.mem_cons_of_mem _ hother)
    cases regs with
    | nil =>
      cases h
      exact ⟨f, hf, .refl f, .nil⟩
    | cons reg regs =>
      have hvolatile : ∀ reg ∈ regs, reg.Volatile := fun other hother =>
        hregs other (List.mem_cons_of_mem _ hother)
      cases hcall : arg.calls with
      | true =>
        rw [direct_calls args reg regs hcall] at h
        exact ih hrest hcalls' hvolatile hf h
      | false =>
        obtain ⟨argCode, restCode, σ₁, hcode, htail, rfl⟩ := direct_quiet_ok hcall h
        have harg := hargs arg List.mem_cons_self
        obtain ⟨f₁, hf₁, hrises₁⟩ := harg.rises hcode hf
        obtain ⟨g, hg, hrises, hstraight⟩ := ih hrest hcalls' hvolatile hf₁ htail
        refine ⟨g, hg, hrises₁.trans hrises, .append ?_ ?_⟩
        · exact (harg.register (hcalls arg List.mem_cons_self) (hregs reg List.mem_cons_self) hf hcode
            hf₁).mono fun _ _ hw => hw.mono (Nat.le_refl _) hrises.highWater
        · exact hstraight.mono fun _ _ hw => hw.mono hrises₁.position (Nat.le_refl _)

theorem unshield_straight {shielded : List (Reservation × Register)} {writes : Int → Ty → Prop}
    (hregs : ∀ p ∈ shielded, p.2.Volatile) (h : unshield shielded = .ok code) :
    Straight calls writes code := by
  induction shielded generalizing code with
  | nil =>
    cases h
    exact .nil
  | cons p shielded ih =>
    obtain ⟨copyCode, restCode, hcopy, hrest, rfl⟩ := unshield_cons_ok h
    have hreg : (p.1.inRegister p.2).Volatile :=
      p.1.volatile_inRegister (hregs p List.mem_cons_self)
    refine .append ((Code.straight_copy hcopy hreg).mono fun _ _ => nofun) (ih ?_ hrest)
    exact fun other hother => hregs other (List.mem_cons_of_mem _ hother)

theorem releaseTemps_frames {count : Nat} (h : (releaseTemps count).run σ = (.ok (), τ))
    (hf : σ.frames = f :: fs) : ∃ g, τ.frames = g :: fs ∧ f.highWater ≤ g.highWater := by
  obtain ⟨g, hg, -, hpeak⟩ := (releaseTemps_advances h).frames hf
  exact ⟨g, hg, hpeak⟩

theorem arguments_straight {args : List Operand} {regs : List Register}
    (hargs : ∀ arg ∈ args, arg.Straight) (hcalls : ∀ arg ∈ args, arg.calls = true → calls)
    (hregs : ∀ reg ∈ regs, reg.Volatile)
    (hf : σ.frames = f :: fs) (h : (arguments args regs).run σ = (.ok code, τ)) :
    ∃ g, τ.frames = g :: fs ∧ Rises f g ∧ Straight calls (Spills f g) code := by
  obtain ⟨g, hg, hgrows⟩ := (arguments_advances Frame.growth_grows
    (fun arg harg => (hargs arg harg).keeps) h).frames hf
  obtain ⟨shieldCode, shielded, directCode, copyCode, σ₁, σ₂, hshield, hdirect, hcopy, hrelease,
    rfl⟩ := arguments_ok h
  obtain ⟨f₁, hf₁, hrises₁, hstraight₁, hshielded⟩ := shield_straight hargs hcalls hf hshield
  obtain ⟨f₂, hf₂, hrises₂, hstraight₂⟩ := direct_straight hargs hcalls hregs hf₁ hdirect
  obtain ⟨g', hg', hpeak⟩ := releaseTemps_frames hrelease hf₂
  cases hg.symm.trans hg'
  refine ⟨g, hg, hgrows.rises, .append (.append ?_ ?_) ?_⟩
  · exact hstraight₁.mono fun _ _ hw =>
      hw.mono (Nat.le_refl _) (Nat.le_trans hrises₂.highWater hpeak)
  · exact hstraight₂.mono fun _ _ hw => hw.mono hrises₁.position hpeak
  · exact unshield_straight (fun p hp => hregs _ (hshielded p hp)) hcopy

theorem result_straight {ty : Ty} {writes : Int → Ty → Prop} {target : Option Reservation}
    (h : result ty target = .ok code)
    (htarget : ∀ res, target = some res → res.Volatile ∧ ∀ offset ty, res.Occupies offset ty →
      writes offset ty) : Straight calls writes code := by
  cases target with
  | none =>
    cases h
    exact .nil
  | some res =>
    obtain ⟨hvolatile, hwrites⟩ := htarget res rfl
    exact (Code.straight_copy h hvolatile).mono hwrites

theorem functionCall_straight {callee : String} {args : List Operand} {target : Option Reservation}
    {writes : Int → Ty → Prop} (hargs : ∀ arg ∈ args, arg.Straight) (hcalls : calls)
    (hf : σ.frames = f :: fs) (h : (functionCall callee args target).run σ = (.ok code, τ)) (hg : τ.frames = g :: gs)
    (hspills : ∀ offset ty, Spills f g offset ty → writes offset ty)
    (htarget : ∀ res, target = some res → res.Volatile ∧ ∀ offset ty, res.Occupies offset ty →
      writes offset ty) : Straight calls writes code := by
  obtain ⟨signature, regs, argCode, resultCode, f₁, fs₁, σ₁, -, -, hregs, hargCode, hf₁, hresult, rfl,
    rfl⟩ := functionCall_ok h
  obtain ⟨usedBuiltins, hmark⟩ := Session.markUsed_eq callee σ
  have hmarked : (Session.markUsed callee σ).frames = f :: fs := by
    rw [hmark]
    exact hf
  obtain ⟨g', hg', -, hstraight⟩ :=
    arguments_straight hargs (fun _ _ _ => hcalls) (volatile_of_argRegisters hregs) hmarked hargCode
  cases hg'.symm.trans hf₁
  cases hg.symm.trans hg'
  have hlive : g.liveTempRegs.Sublist Register.tempBank := List.filter_sublist
  rw [List.append_assoc argCode, List.append_assoc argCode]
  exact .append (.append (hstraight.mono hspills) (.call _ hcalls hlive)) (result_straight hresult htarget)

theorem trapOperands_straight {number : Operand} {args : List Operand} {regs : List Register}
    (hnumber : number.Straight) (hargs : ∀ arg ∈ args, arg.Straight) (hcalls : calls)
    (hregs : ∀ reg ∈ regs, reg.Volatile) (hf : σ.frames = f :: fs)
    (h : (trapOperands number args regs).run σ = (.ok code, τ)) (hg : τ.frames = g :: gs) :
    Straight calls (Spills f g) code := by
  have htrap : Register.trapNumber.Volatile := trivial
  rcases trapOperands_ok h with
    ⟨res, numberCode, argCode, copyCode, σ₁, σ₂, σ₃, -, hres, hlower, hargCode, hcopy, hrelease, rfl⟩ |
    ⟨argCode, numberCode, σ₁, -, hargCode, hlower, rfl⟩
  · obtain ⟨f₂, hf₂, hrises₂, hstraight₂⟩ := hnumber.temp (fun _ => hcalls) hres hlower hf
    obtain ⟨f₃, hf₃, hrises₃, hstraight₃⟩ := arguments_straight hargs (fun _ _ _ => hcalls) hregs hf₂ hargCode
    obtain ⟨g', hg', hpeak⟩ := Session.releaseTemp_frames hrelease hf₃
    cases hg.symm.trans hg'
    refine .append (.append ?_ ?_) ?_
    · exact hstraight₂.mono fun _ _ hw =>
        hw.mono (Nat.le_refl _) (Nat.le_trans hrises₃.highWater hpeak)
    · exact hstraight₃.mono fun _ _ hw => hw.mono hrises₂.position hpeak
    · have hvolatile : (Reservation.ofReg .int .trapNumber).Volatile := by
        rintro _ ⟨⟩
        exact htrap
      exact (Code.straight_copy hcopy hvolatile).mono fun _ _ => nofun
  · obtain ⟨f₁, hf₁, hrises₁, hstraight₁⟩ := arguments_straight hargs (fun _ _ _ => hcalls) hregs hf hargCode
    obtain ⟨g', hg', hrises'⟩ := hnumber.rises hlower hf₁
    cases hg.symm.trans hg'
    refine .append ?_ ?_
    · exact hstraight₁.mono fun _ _ hw => hw.mono (Nat.le_refl _) hrises'.highWater
    · exact (hnumber.register (fun _ => hcalls) htrap hf₁ hlower hg).mono fun _ _ hw =>
        hw.mono hrises₁.position (Nat.le_refl _)

theorem trap_straight {operands : List Operand} {target : Option Reservation}
    {writes : Int → Ty → Prop} (hoperands : ∀ operand ∈ operands, operand.Straight) (hcalls : calls)
    (hf : σ.frames = f :: fs) (h : (trap operands target).run σ = (.ok code, τ))
    (hg : τ.frames = g :: gs) (hspills : ∀ offset ty, Spills f g offset ty → writes offset ty)
    (htarget : ∀ res, target = some res → res.Volatile ∧ ∀ offset ty, res.Occupies offset ty →
      writes offset ty) : Straight calls writes code := by
  obtain ⟨number, args, regs, operandCode, resultCode, σ₁, rfl, hregs, hcode, hresult, rfl, rfl⟩ :=
    trap_ok h
  have hargs : ∀ arg ∈ args, arg.Straight := fun arg harg =>
    hoperands arg (List.mem_cons_of_mem _ harg)
  have hstraight := trapOperands_straight (hoperands number List.mem_cons_self) hargs hcalls
    (volatile_of_argRegisters hregs) hf hcode hg
  exact .append (.append (hstraight.mono hspills) (.trap _)) (result_straight hresult htarget)

theorem call_straight {callee : String} {args : List Operand} {target : Option Reservation}
    {writes : Int → Ty → Prop} (hargs : ∀ arg ∈ args, arg.Straight) (hcalls : calls)
    (hf : σ.frames = f :: fs) (h : (call callee args target).run σ = (.ok code, τ)) (hg : τ.frames = g :: gs)
    (hspills : ∀ offset ty, Spills f g offset ty → writes offset ty)
    (htarget : ∀ res, target = some res → res.Volatile ∧ ∀ offset ty, res.Occupies offset ty →
      writes offset ty) : Straight calls writes code := by
  rw [call] at h
  split at h
  · exact trap_straight hargs hcalls hf h hg hspills htarget
  · exact functionCall_straight hargs hcalls hf h hg hspills htarget

end Lower

/-! ## All expressions -/

namespace Expr

theorem operand_straight (expr : Expr) : expr.operand.Straight := by
  refine ⟨expr.operand_grows, ?_⟩
  induction expr using Expr.induct with
  | literal value ty =>
    intro calls target σ code τ f fs g gs hcalls hf h hg htarget
    obtain ⟨hcode, -⟩ := Lower.lift_run h
    exact (Code.straight_putConstant hcode htarget).mono fun _ _ => Or.inl
  | var name ty =>
    intro calls target σ code τ f fs g gs hcalls hf h hg htarget
    obtain ⟨slot, σ₁, -, h₁⟩ := StepM.run_bind_eq_ok.mp h
    obtain ⟨hcopy, -⟩ := Lower.lift_run h₁
    exact (Code.straight_copy hcopy htarget).mono fun _ _ => Or.inl
  | deref pointer ty ih =>
    intro calls target σ code τ f fs g gs hcalls hf h hg htarget
    have hpointer : pointer.operand.Straight := ⟨pointer.operand_grows, ih⟩
    exact Lower.unary_straight hpointer hcalls hf h hg htarget
  | call callee args ty ih =>
    intro calls target σ code τ f fs g gs hcalls hf h hg htarget
    refine Lower.call_straight (forall_operands.mpr fun arg harg => ?_) (hcalls rfl) hf h hg
      (fun _ _ => Or.inr) ?_
    · exact ⟨arg.operand_grows, ih arg harg⟩
    · rintro _ ⟨⟩
      exact ⟨htarget, fun _ _ => Or.inl⟩
  | binary op lhs rhs ty ihl ihr =>
    intro calls target σ code τ f fs g gs hcalls hf h hg htarget
    have hlhs : lhs.operand.Straight := ⟨lhs.operand_grows, ihl⟩
    have hrhs : rhs.operand.Straight := ⟨rhs.operand_grows, ihr⟩
    have hl : lhs.containsCalls = true → calls := fun hl => hcalls (Bool.or_eq_true_iff.mpr (Or.inl hl))
    have hr : rhs.containsCalls = true → calls := fun hr => hcalls (Bool.or_eq_true_iff.mpr (Or.inr hr))
    exact Lower.binary_straight hlhs hrhs hl hr hf h hg htarget
  | unary op operand ty ih =>
    intro calls target σ code τ f fs g gs hcalls hf h hg htarget
    have hoperand : operand.operand.Straight := ⟨operand.operand_grows, ih⟩
    simp only [Expr.operand, Expr.lower] at h
    split at h
    · obtain ⟨name, _, slot, -, -, haddress⟩ := Lower.addressOf_ok h
      exact Lower.address_straight haddress htarget fun reg hreg => Code.straight_frameAddress hreg _
    · exact Lower.unary_straight hoperand hcalls hf h hg htarget
  | array elements ty ih =>
    intro calls target σ code τ f fs g gs hcalls hf h hg htarget
    refine Lower.array_straight (forall_operands.mpr fun element helement => ?_)
      (forall_operands.mpr fun element helement hcall => ?_) hf h hg htarget
    · exact ⟨element.operand_grows, ih element helement⟩
    · exact hcalls (anyContainsCalls_iff.mpr ⟨element, helement, hcall⟩)
  | str text ty =>
    intro calls target σ code τ f fs g gs hcalls hf h hg htarget
    obtain ⟨label, -, haddress⟩ := Lower.string_ok h
    exact Lower.address_straight haddress htarget fun reg hreg => Code.straight_labelAddress hreg _
  | empty ty =>
    intro calls target σ code τ f fs g gs hcalls hf h hg htarget
    cases h
    exact .nil

/-- The code of an expression stores into its target and into free slots. -/
theorem lower_straight {expr : Expr} {target : Reservation} {code : Code} (hf : σ.frames = f :: fs)
    (h : (expr.lower target).run σ = (.ok code, τ)) (hg : τ.frames = g :: gs)
    (htarget : target.Volatile) (hcalls : expr.containsCalls = true → calls) :
    Straight calls (fun offset ty => target.Occupies offset ty ∨ Spills f g offset ty) code :=
  expr.operand_straight.code hcalls hf h hg htarget

end Expr

end ArmBackend
