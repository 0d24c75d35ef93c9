import ArmBackend.Proofs.Expr.Straight
import ArmBackend.Proofs.Stmt.Progress

/-!
# Parts of statements are straight-line code

What a statement computes is computed by straight-line code. It stores into free slots, and an assignment
also into the slot of its variable.
-/

namespace ArmBackend

open Session (onFrame onFrame_ok)
open Code (Straight)
open ArmBackend.Frame (Rises Spills)

variable {σ τ : Session} {f g : Frame} {fs gs : List Frame} {code : Code} {calls : Prop}

theorem Frame.addVariable_spills {ty : Ty} {name : String} {slot : Slot}
    (h : (addVariable ty name).run f = (.ok slot, g)) :
    Rises f g ∧ Spills f g slot.offset slot.ty := by
  obtain ⟨-, hsize, rfl, rfl⟩ := addVariable_ok h
  obtain ⟨hrises, hspills⟩ := spills_withSlot f hsize
  exact ⟨⟨hrises.position, hrises.highWater⟩, hspills⟩

namespace Expr

theorem lower_rises {expr : Expr} {target : Reservation}
    (h : (expr.lower target).run σ = (.ok code, τ)) (hf : σ.frames = f :: fs) :
    ∃ g, τ.frames = g :: fs ∧ Rises f g :=
  expr.operand_straight.rises h hf

theorem lower_straight_slot {expr : Expr} {slot : Slot} (hf : σ.frames = f :: fs)
    (h : (expr.lower slot.reservation).run σ = (.ok code, τ)) (hg : τ.frames = g :: gs)
    {f₀ : Frame} (hrises : Rises f₀ f) (hslot : Spills f₀ f slot.offset slot.ty)
    (hcalls : expr.containsCalls = true → calls) : Straight calls (Spills f₀ g) code := by
  obtain ⟨g', hg', hrises'⟩ := lower_rises h hf
  cases hg.symm.trans hg'
  refine (lower_straight hf h hg nofun hcalls).mono fun offset ty hw => ?_
  rcases hw with hw | hw
  · cases hw
    exact hslot.mono (Nat.le_refl _) hrises'.highWater
  · exact hw.mono hrises.position (Nat.le_refl _)

end Expr

namespace Lower

theorem condition_straight {cond : Expr} (hf : σ.frames = f :: fs)
    (h : (condition cond).run σ = (.ok code, τ)) (hg : τ.frames = g :: gs)
    (hcalls : cond.containsCalls = true → calls) : Straight calls (Spills f g) code := by
  obtain ⟨condCode, hcond, rfl⟩ := condition_ok h
  have hstaging : Register.staging.Volatile := trivial
  have hcompare : (Instr.cmpImm .staging 0).Quiet := trivial
  exact .append (cond.operand_straight.register hcalls hstaging hf hcond hg) (.quiet hcompare)

theorem init_straight {ty : Ty} {name : String} {expr : Expr} (hf : σ.frames = f :: fs)
    (h : (init ty name expr).run σ = (.ok code, τ)) (hg : τ.frames = g :: gs)
    (hcalls : expr.containsCalls = true → calls) : Straight calls (Spills f g) code := by
  obtain ⟨slot, σ₁, hslot, hvalue⟩ := init_ok h
  obtain ⟨f₁, hf₁, hrun⟩ := (onFrame_ok hslot).1.frames hf
  obtain ⟨hrises, hspills⟩ := Frame.addVariable_spills hrun
  exact Expr.lower_straight_slot hf₁ hvalue hg hrises hspills hcalls

theorem assign_straight {name : String} {expr : Expr} (hf : σ.frames = f :: fs)
    (h : (assign name expr).run σ = (.ok code, τ)) (hg : τ.frames = g :: gs)
    (hcalls : expr.containsCalls = true → calls) :
    ∃ slot, f.symbols.lookup name = some slot ∧
      Straight calls (fun offset ty => slot.reservation.Occupies offset ty ∨ Spills f g offset ty) code := by
  obtain ⟨slot, temp, exprCode, copyCode, σ₁, σ₂, σ₃, hslot, htemp, hexprCode, hcopy, hrelease, rfl⟩ :=
    assign_ok h
  obtain ⟨f₁, hf₁, hresolve⟩ := (onFrame_ok hslot).1.frames hf
  obtain ⟨hlookup, rfl⟩ := Frame.resolve_ok hresolve
  obtain ⟨f₂, hf₂, -, hstraight⟩ := expr.operand_straight.temp hcalls htemp hexprCode hf₁
  obtain ⟨g', hg', hpeak⟩ := Session.releaseTemp_frames hrelease hf₂
  cases hg.symm.trans hg'
  refine ⟨slot, hlookup, .append ?_ ?_⟩
  · exact hstraight.mono fun _ _ hw => Or.inr (hw.mono (Nat.le_refl _) hpeak)
  · exact (Code.straight_copy hcopy nofun).mono fun _ _ => Or.inl

theorem returned_straight {ty : Ty} {expr : Expr} (hf : σ.frames = f :: fs)
    (h : (returned ty expr).run σ = (.ok code, τ)) (hg : τ.frames = g :: gs)
    (hcalls : expr.containsCalls = true → calls) : Straight calls (Spills f g) code := by
  have hresult : Register.result.Volatile := trivial
  rcases returned_ok h with
    ⟨-, temp, exprCode, copyCode, σ₁, σ₂, htemp, hexprCode, hcopy, hrelease, rfl⟩ | ⟨-, hexprCode⟩
  · obtain ⟨f₁, hf₁, -, hstraight⟩ := expr.operand_straight.temp hcalls htemp hexprCode hf
    obtain ⟨g', hg', hpeak⟩ := Session.releaseTemp_frames hrelease hf₁
    cases hg.symm.trans hg'
    refine .append (hstraight.mono fun _ _ hw => hw.mono (Nat.le_refl _) hpeak) ?_
    have hvolatile : (Reservation.ofReg ty .result).Volatile := by
      rintro _ ⟨⟩
      exact hresult
    exact (Code.straight_copy hcopy hvolatile).mono fun _ _ => nofun
  · exact expr.operand_straight.register hcalls hresult hf hexprCode hg

theorem store_straight {pointer expr : Expr} (hf : σ.frames = f :: fs)
    (h : (store pointer expr).run σ = (.ok code, τ)) (hg : τ.frames = g :: gs)
    (hpcalls : pointer.containsCalls = true → calls) (hcalls : expr.containsCalls = true → calls) :
    ∃ setup pointee, code = setup ++ Code.storeThrough .operand .staging pointee ∧
      Straight calls (Spills f g) setup := by
  obtain ⟨pointee, pointerSlot, pointerCode, valueSlot, valueCode, loadPointer, loadValue, σ₁, σ₂, σ₃,
    σ₄, σ₅, -, hpointer, hpointerCode, hvalue, hvalueCode, hcopy, hcopy', hrelease, hrelease', rfl⟩ :=
    store_ok h
  obtain ⟨f₁, hf₁, hrun₁⟩ := (onFrame_ok hpointer).1.frames hf
  obtain ⟨hrises₁, hspills₁⟩ := Frame.reserveVariable_spills hrun₁
  obtain ⟨f₂, hf₂, hrises₂⟩ := Expr.lower_rises hpointerCode hf₁
  obtain ⟨f₃, hf₃, hrun₃⟩ := (onFrame_ok hvalue).1.frames hf₂
  obtain ⟨hrises₃, hspills₃⟩ := Frame.reserveVariable_spills hrun₃
  obtain ⟨f₄, hf₄, hrises₄⟩ := Expr.lower_rises hvalueCode hf₃
  obtain ⟨f₅, hf₅, hrun₅⟩ := (onFrame_ok hrelease).1.frames hf₄
  obtain ⟨g', hg', hrun₆⟩ := (onFrame_ok hrelease').1.frames hf₅
  cases hg.symm.trans hg'
  have hpeak : f₄.highWater ≤ g.highWater := Nat.le_trans
    (Frame.releaseVariable_peaks hrun₅).highWater (Frame.releaseVariable_peaks hrun₆).highWater
  have hrises := hrises₁.trans hrises₂
  have hstaging : Register.staging.Volatile := trivial
  have hoperand : Register.operand.Volatile := trivial
  refine ⟨pointerCode ++ valueCode ++ loadPointer ++ loadValue, pointee, rfl, ?_⟩
  refine .append (.append (.append ?_ ?_) ?_) ?_
  · refine (Expr.lower_straight_slot hf₁ hpointerCode hf₂ hrises₁ hspills₁ hpcalls).mono fun _ _ hw => ?_
    exact hw.mono (Nat.le_refl _)
      (Nat.le_trans (hrises₃.trans hrises₄).highWater hpeak)
  · refine (Expr.lower_straight_slot hf₃ hvalueCode hf₄ hrises₃ hspills₃ hcalls).mono fun _ _ hw => ?_
    exact hw.mono hrises.position hpeak
  · exact Code.straight_inRegister hcopy hstaging
  · exact Code.straight_inRegister hcopy' hoperand

theorem discarded_straight {callee : String} {args : List Expr} (hf : σ.frames = f :: fs)
    (h : (call callee (Expr.operands args) none).run σ = (.ok code, τ)) (hg : τ.frames = g :: gs)
    (hcalls : calls) : Straight calls (Spills f g) code :=
  call_straight (Expr.forall_operands.mpr fun arg _ => arg.operand_straight) hcalls hf h hg
    (fun _ _ => id) nofun

end Lower

end ArmBackend
