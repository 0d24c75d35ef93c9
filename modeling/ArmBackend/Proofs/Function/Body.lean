import ArmBackend.Proofs.Function.Progress
import ArmBackend.Proofs.Program.Eval

/-!
# Bodies of functions are lowered correctly

The code between prologue and epilogue takes the parameters to their slots, does what the body does, and
ends at the label of the return with the result in x0.
-/

namespace ArmBackend

open Session (onFrame Advances onFrame_ok)

variable {σ τ : Session} {code : Code} {f g : Frame} {fs : List Frame}

namespace Activation

variable {A : Activation} {env env' : Env} {s : State} {pc fuel : Nat}

/-! ## Parameters -/

theorem Stands.reaches_params (h : A.Stands f env s) {params : List Param} {regs : List Register}
    {args : List Word} (hcode : (Function.bindParams params regs).run σ = (.ok code, τ))
    (hf : σ.frames = f :: fs) (hg : τ.frames = g :: fs) (hafter : A.setting.After τ)
    (hat : A.image.At pc code) (henter : Function.enter params args env = some env')
    (hregs : ∀ reg ∈ regs, reg ∈ Register.argBank)
    (hargs : ∀ arg ∈ regs.zip args, s.regs arg.1 = arg.2) :
    A.image.Reaches pc s (pc + code.length) fun t => env'.Laid g t ∧ A.Moves s t := by
  induction params generalizing σ code f env s pc regs args with
  | nil =>
    cases hcode
    cases hf.symm.trans hg
    cases args with
    | cons v args => cases henter
    | nil =>
      cases henter
      exact .refl ⟨h.laid, .refl s⟩
  | cons param params ih =>
    cases regs with
    | nil => cases hcode
    | cons reg regs =>
      cases args with
      | nil => cases henter
      | cons v args =>
        obtain ⟨slot, copyCode, restCode, σ₁, hslot, hcopy, hrest, rfl⟩ :=
          Function.bindParams_cons_ok hcode
        obtain ⟨f₁, hf₁, hrun⟩ := (onFrame_ok hslot).1.frames hf
        obtain ⟨hsettled, hty, hsymbols, -⟩ := h.settled.addVariable hrun
        have hafter₁ := hafter.of_advances (Function.bindParams_extends hrest) Frame.Extends.highWater
        have hlookup : f₁.symbols.lookup param.name = some slot := by
          rw [hsymbols, List.lookup_cons, beq_self_eq_true]
        have hstands : A.Stands f₁ (env.declare slot.ty param.name) s :=
          h.of_extends (Frame.addVariable_extends hrun) (.refl s) (h.laid.declare hsymbols) hafter₁ hf₁
        have hfirst := hargs (reg, v) List.mem_cons_self
        obtain ⟨hat₁, hat₂⟩ := Image.at_append.mp hat
        rw [List.length_append, ← Nat.add_assoc]
        have hset := Code.ensures_copy (w := A.image.linked) (s := s) hcopy (by rintro ⟨⟩)
          (by rintro _ ⟨⟩)
        refine (Image.reaches_of_ensures hat₁ hset).trans fun t ht => ?_
        have hread : t.read slot.reservation = slot.ty.width.low v :=
          ht.read.trans (congrArg slot.ty.width.low hfirst)
        have honly : ChangesOnly slot.reservation.Spoils
            (fun a => slot.reservation.Covers (s.regs .framePointer) a ∨
              Scratch (s.regs .framePointer) f₁.position A.setting.bound a) s t :=
          ht.only.mono (fun _ => id) fun _ => Or.inl
        have hlaid : (env.define param.ty param.name v).Laid f₁ t := by
          have hdefine := hstands.laid.define hsettled hstands.position_lt hlookup
            (by rintro (h | h) <;> cases h) hread honly
          rwa [Env.declare, Env.define, Function.update_idem, hty] at hdefine
        have hmoves : A.Moves s t := ht.only.mono
          (fun other hother => Or.inr (hother.elim Or.inl fun h => Or.inr (Or.inl h)))
          fun a ha => hstands.scratch hlookup ha
        refine (ih (hstands.moves hmoves hlaid) hrest hf₁ hat₂ henter
          (fun other hother => hregs other (List.mem_cons_of_mem _ hother)) fun arg harg => ?_).mono
          fun u hu => ⟨hu.1, hmoves.trans hu.2⟩
        have hbank := hregs arg.1 (List.mem_cons_of_mem _ (List.of_mem_zip harg).1)
        rw [ht.only.reg arg.1 fun hspoils => ?_, hargs arg (List.mem_cons_of_mem _ harg)]
        obtain ⟨index, hindex⟩ := Register.mem_argBank.mp hbank
        rw [hindex] at hspoils
        rcases hspoils with h | h <;> cases h

/-! ## The body -/

theorem Stands.reaches_body {function : Function} (hsignature : A.signature = function.signature)
    (hcalls : function.containsCalls = true → A.calls = true)
    (houter : ∀ stmt ∈ function.body, stmt.Outer) (hoptions : σ.options = {})
    (hcode : function.lowerBody.run σ = (.ok code, τ)) (hf : σ.frames = {} :: fs)
    (hafter : A.setting.After τ) (hhosts : A.image.Hosts pc code)
    (hreturn : A.image.code.address? (.returnOf function.name) = some (pc + code.length))
    {args : List Word} {result : Option Word}
    (heval : function.eval A.setting.ctx fuel args = some result)
    (hready : A.calls = true → A.setting.Ready s)
    (hargs : ∀ arg ∈ Register.argBank.zip args, s.regs arg.1 = arg.2) :
    A.image.Reaches pc s (pc + code.length) fun t =>
      (∀ v, result = some v → t.regs .result = v) ∧ A.Moves s t := by
  obtain ⟨env, outcome, henter, hexec, hresult⟩ := Function.eval_eq_some heval
  obtain ⟨paramCode, bodyCode, returnCode, σ₁, σ₂, hparams, hbody, hret, rfl⟩ :=
    Function.lowerBody_ok hcode
  obtain ⟨f₁, hf₁, hextends₁⟩ := (Function.bindParams_extends hparams).frames hf
  obtain ⟨f₂, hf₂, hextends₂⟩ := (Stmt.lowerBlock_extends houter hbody).frames hf₁
  have hafter₂ := hafter.of_advances (Function.implicitReturn_rests hret) Frame.Rests.highWater
  have hafter₁ := hafter₂.of_peaks (Stmt.lowerBlock_peaks hbody)
  obtain ⟨hhosts, hhosts₃⟩ := hhosts.append
  obtain ⟨hhosts₁, hhosts₂⟩ := hhosts.append
  have hstands : A.Stands {} (fun _ => none) s := ⟨.empty, .empty _ _, Nat.zero_le _, hready⟩
  have hentered := hstands.reaches_params hparams hf hf₁ hafter₁ hhosts₁.stands henter (fun _ => id) hargs
  obtain ⟨u, hruns, hlaid, hmoves⟩ := hentered
  have hstands₁ := hstands.of_extends hextends₁ hmoves hlaid hafter₁ hf₁
  rw [← hsignature] at hbody
  have hgoes := goes_body houter
    (fun stmt hmem hc => hcalls (Stmt.blockContainsCalls_iff.mpr ⟨stmt, hmem, hc⟩)) hexec hbody hf₁ hf₂
    hafter₂ hhosts₂ hstands₁ hextends₁.loops
  have hend : pc + (paramCode ++ bodyCode ++ returnCode).length =
      pc + paramCode.length + bodyCode.length + returnCode.length := by
    simp only [List.length_append]
    omega
  rw [hend] at hreturn ⊢
  rw [List.length_append, ← Nat.add_assoc] at hhosts₃
  refine Image.Reaches.trans ⟨u, hruns, rfl⟩ fun u' hu' => ?_
  subst hu'
  cases outcome with
  | broke env => cases hresult
  | continued env => cases hresult
  | returned value =>
    cases hresult
    exact (hgoes _ (hsignature ▸ hreturn)).mono fun t ht => ⟨ht.1, hmoves.trans ht.2⟩
  | next env₁ =>
    refine Image.Reaches.trans hgoes fun t ⟨hlaid₁, hmoves₁⟩ => ?_
    have hmoves₂ := hmoves.trans hmoves₁
    have hoptions₂ : σ₂.options = {} := (Stmt.lowerBlock_extends houter hbody).options.trans
      ((Function.bindParams_extends hparams).options.trans hoptions)
    rw [Function.answer, Function.name, ← hoptions₂] at hresult
    rcases Function.implicitReturn_ok hret with ⟨hmain, hretCode⟩ | ⟨hmain, rfl, -⟩
    · have hstands₂ := hstands₁.of_extends hextends₂ hmoves₁ hlaid₁ hafter₂ hf₂
      rw [if_pos hmain] at hresult
      cases hresult
      rw [← hsignature] at hretCode
      have hzero : A.Simulates fuel (.ret (.literal (.int 0) .int)) :=
        simulates Function.inner_return_zero nofun
      have hgoes₂ : A.Goes f₂ f₂ t _ _ (.returned (some 0)) :=
        hzero rfl hretCode hf₂ hafter hhosts₃ hstands₂
      exact (hgoes₂ _ (hsignature ▸ hreturn)).mono fun t ht => ⟨ht.1, hmoves₂.trans ht.2⟩
    · rw [if_neg hmain] at hresult
      cases hresult
      exact .refl ⟨nofun, hmoves₂⟩

end Activation

end ArmBackend
