import ArmBackend.Proofs.Function.Progress
import ArmBackend.Proofs.Stmt.Woven

/-!
# Bodies of functions are woven code

The code between prologue and epilogue writes slots of the function's own frame, and memory through
pointers.
-/

namespace ArmBackend

open Session (Advances onFrame_ok)
open Code (Straight Woven)
open ArmBackend.Frame (Deepens Spills)

variable {calls : Prop} {σ τ : Session} {f g : Frame} {fs : List Frame} {code : Code}

namespace Function

theorem bindParams_deepens {params : List Param} {regs : List Register}
    (h : (bindParams params regs).run σ = (.ok code, τ)) : Advances Deepens σ τ :=
  bindParams_advances Frame.passage_deepens.of_rests Deepens.trans Frame.addVariable_deepens h

theorem bindParams_straight {params : List Param} {regs : List Register}
    (h : (bindParams params regs).run σ = (.ok code, τ)) (hf : σ.frames = f :: fs)
    (hg : τ.frames = g :: fs) (hnamed : f.Named) : Straight calls (Spills f g) code := by
  induction params generalizing σ code regs f with
  | nil =>
    cases h
    exact .nil
  | cons param params ih =>
    cases regs with
    | nil => cases h
    | cons reg regs =>
      obtain ⟨slot, copyCode, restCode, σ₁, hslot, hcopy, hrest, rfl⟩ := bindParams_cons_ok h
      obtain ⟨f₁, hf₁, hrun⟩ := (onFrame_ok hslot).1.frames hf
      obtain ⟨g', hg', hdeepens'⟩ := (bindParams_deepens hrest).frames hf₁
      cases hg.symm.trans hg'
      have hdeepens := Frame.addVariable_deepens hrun
      obtain ⟨-, hspills⟩ := Frame.addVariable_spills hrun
      refine .append ((Code.straight_copy hcopy nofun).mono fun offset ty hoccupies => ?_)
        ((ih hrest hf₁ (hdeepens.named hnamed)).mono fun offset ty hw => ?_)
      · cases hoccupies
        exact hspills.mono (Nat.le_refl _) hdeepens'.highWater
      · exact hw.mono (hdeepens.position hnamed) (Nat.le_refl _)

theorem implicitReturn_woven {signature : Signature}
    (h : (implicitReturn signature).run σ = (.ok code, τ)) (hf : σ.frames = f :: fs)
    (hg : τ.frames = g :: fs) : Woven calls (Spills f g) code := by
  rcases implicitReturn_ok h with ⟨-, hret⟩ | ⟨-, rfl, -⟩
  · exact Lower.ret_woven hf hret hg nofun
  · exact .nil

/-- The code between prologue and epilogue writes slots of the function's own frame. -/
theorem lowerBody_woven {function : Function} (h : function.lowerBody.run σ = (.ok code, τ))
    (hf : σ.frames = {} :: fs) (hg : τ.frames = g :: fs) :
    Woven (function.containsCalls = true) (Spills {} g) code := by
  obtain ⟨paramCode, bodyCode, returnCode, σ₁, σ₂, hparams, hbody, hret, rfl⟩ := lowerBody_ok h
  obtain ⟨f₁, hf₁, hdeepens₁⟩ := (bindParams_deepens hparams).frames hf
  obtain ⟨f₂, hf₂, hdeepens₂⟩ := (Stmt.lowerBlock_deepens hbody).frames hf₁
  obtain ⟨g', hg', hrest⟩ := (implicitReturn_rests hret).frames hf₂
  cases hg.symm.trans hg'
  have hnamed₁ := hdeepens₁.named .empty
  have hdeepens := hdeepens₁.trans hdeepens₂
  refine .append (.append (.of_straight ?_) ?_) ?_
  · exact (bindParams_straight hparams hf hf₁ .empty).mono fun _ _ hw =>
      hw.mono (Nat.le_refl _) (Nat.le_trans hdeepens₂.highWater hrest.highWater)
  · refine (Stmt.lowerBlock_trail hbody hf₁ hf₂ hnamed₁ id).woven.mono fun offset ty hw => ?_
    -- No name stands for a variable from before the parameters.
    have hnames : f₁.names = f₁.names ++ ({} : Frame).names := (List.append_nil _).symm
    rcases hw.later hdeepens₁ hnames .empty hdeepens₂.highWater fun _ hname _ => hname with
      hspills | ⟨name, -, slot, hlookup, -⟩
    · exact hspills.mono (Nat.le_refl _) hrest.highWater
    · cases hlookup
  · exact (implicitReturn_woven hret hf₂ hg).mono fun _ _ hw => hw.mono (Nat.zero_le _) (Nat.le_refl _)

end Function

end ArmBackend
