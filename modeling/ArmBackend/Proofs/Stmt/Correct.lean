import ArmBackend.Proofs.Stmt.Activation

/-!
# Statements are lowered correctly

Where a statement has an outcome, its code leads to the line that the outcome asks for, with the
variables as the outcome says.
-/

namespace ArmBackend

open Session (onFrame Advances onFrame_ok)

theorem Frame.Settled.admits {f : Frame} (hf : f.Settled) {name : String} {slot : Slot}
    (hlookup : f.symbols.lookup name = some slot) (expr : Expr) :
    slot.reservation.Fits f ∧ expr.Admits f slot.reservation := by
  obtain ⟨hsize, hle, hposition⟩ := hf.bounds hlookup
  refine ⟨⟨slot.offset, rfl, hsize, hle, hposition⟩, ?_⟩
  cases expr with
  | var name' ty =>
    intro slot' hlookup' hloc
    have hoffset : slot'.offset = slot.offset := by
      have := Location.slot.inj hloc
      omega
    have hmem := Frame.mem_slots_of_local (hf.mem_locals hlookup)
    have hmem' := Frame.mem_slots_of_local (hf.mem_locals hlookup')
    rw [hf.valid.eq_of_offset hmem' hmem hoffset]
  | _ => trivial

theorem Env.assign_eq_some {env env' : Env} {name : String} {v : Word}
    (h : env.assign name v = some env') :
    ∃ ty value, env name = some (ty, value) ∧ env' = env.define ty name v := by
  obtain ⟨⟨ty, value⟩, hvar, rfl⟩ := Option.map_eq_some_iff.mp h
  exact ⟨ty, value, hvar, rfl⟩

namespace Activation

variable {A : Activation} {f : Frame} {fs : List Frame} {env env' : Env} {s : State}
variable {σ σ₁ τ : Session} {code : Code} {expr : Expr} {v : Word} {pc : Nat}

/-! ## Values -/

theorem Stands.reaches_register (h : A.Stands f env s) (hplain : expr.Plain)
    (hv : expr.eval (env.context A.setting.ctx) = some v) {ty : Ty} {reg : Register}
    (hcode : (expr.lower (.ofReg ty reg)).run σ = (.ok code, τ)) (hf : σ.frames = f :: fs)
    (hafter : A.setting.After τ) (hat : A.image.At pc code)
    (hcalls : expr.containsCalls = true → A.calls = true)
    (hfits : (Reservation.ofReg ty reg).Fits f) (hreg : reg = .result ∨ reg = .staging) :
    A.image.Reaches pc s (pc + code.length) fun t => t.regs reg = v ∧ env.Laid f t ∧ A.Moves s t := by
  refine (Image.reaches_of_ensures hat (h.ensures_lower hplain hv hcode hf hafter hfits
    (expr.admits_ofReg f ty reg) hcalls)).mono fun t ht => ⟨ht.read, ?_, ?_⟩
  · refine h.laid.of_only h.settled h.position_lt ?_
      (ht.only.mono (fun _ => id) fun a ha => ha.resolve_left id)
    exact fun hfp => hfp.elim hfits.receives.1 (Frame.not_clobbers_framePointer _ _)
  · refine ht.only.mono (fun other hother => ?_) fun a ha => ?_
    · rcases hother with hloc | hclobbers
      · obtain rfl : reg = other := Location.reg.inj hloc
        exact hreg.imp_right Or.inl
      · exact Or.inr (hclobbers.to_empty.mono hcalls)
    · exact (ha.resolve_left id).mono (Nat.zero_le _) (Nat.le_refl _)

theorem fits_staging (ty : Ty) (f : Frame) : (Reservation.ofReg ty .staging).Fits f :=
  ⟨by decide, fun hbank => by simp [Register.mem_tempBank, Register.staging] at hbank⟩

theorem fits_result (ty : Ty) (f : Frame) : (Reservation.ofReg ty .result).Fits f :=
  Setting.fits_arg (Register.mem_argBank.mpr ⟨0, rfl⟩) ty f

theorem Stands.reaches_condition (h : A.Stands f env s) (hplain : expr.Plain)
    (hv : expr.eval (env.context A.setting.ctx) = some v)
    (hcode : (Lower.condition expr).run σ = (.ok code, τ)) (hf : σ.frames = f :: fs)
    (hafter : A.setting.After τ) (hat : A.image.At pc code)
    (hcalls : expr.containsCalls = true → A.calls = true) :
    A.image.Reaches pc s (pc + code.length) fun t =>
      Cond.eq.holds t.flags = (v == 0) ∧ env.Laid f t ∧ A.Moves s t := by
  obtain ⟨condCode, hcondCode, rfl⟩ := Lower.condition_ok hcode
  obtain ⟨hat₁, hat₂⟩ := Image.at_append.mp hat
  rw [List.length_append, ← Nat.add_assoc]
  refine (h.reaches_register hplain hv hcondCode hf hafter hat₁ hcalls (fits_staging _ _)
    (Or.inr rfl)).trans fun t ⟨hread, hlaid, hmoves⟩ => ?_
  refine Image.reaches_of_ensures hat₂ ⟨_, rfl, ?_, ?_, ⟨hmoves.reg, hmoves.byte⟩⟩
  · rw [Cond.holds_compare, hread]
    rfl
  · exact hlaid

/-! ## Variables -/

theorem Stands.reaches_assign (h : A.Stands f env s) (hplain : expr.Plain)
    (hv : expr.eval (env.context A.setting.ctx) = some v) {name : String}
    (henv : env.assign name v = some env') (hcode : (Lower.assign name expr).run σ = (.ok code, τ))
    (hf : σ.frames = f :: fs) (hafter : A.setting.After τ) (hat : A.image.At pc code)
    (hcalls : expr.containsCalls = true → A.calls = true) :
    A.image.Reaches pc s (pc + code.length) fun t => env'.Laid f t ∧ A.Moves s t := by
  obtain ⟨slot, temp, exprCode, copyCode, σ₁, σ₂, σ₃, hslot, htemp, hexprCode, hcopy, hrelease, rfl⟩ :=
    Lower.assign_ok hcode
  obtain ⟨f₁, hf₁, hresolve⟩ := (onFrame_ok hslot).1.frames hf
  obtain ⟨hlookup, rfl⟩ := Frame.resolve_ok hresolve
  obtain ⟨reg, rfl, hens⟩ := h.ensures_temp hplain hv htemp hexprCode hf₁
    (hafter.of_releaseTemp hrelease) hcalls
  obtain ⟨ty, value, hvar, rfl⟩ := Env.assign_eq_some henv
  obtain ⟨slot', hlookup', rfl, -⟩ := h.laid _ _ _ hvar
  cases hlookup.symm.trans hlookup'
  have hall : Code.Ensures A.image.linked (exprCode ++ copyCode) s fun t =>
      (env.define slot.ty name v).Laid f₁ t ∧ A.Moves s t := by
    rw [Code.ensures_append]
    refine hens.mono fun t ⟨hread, honly⟩ => ?_
    refine (Code.ensures_copy hcopy nofun fun _ => nofun).mono fun u hu => ?_
    have hfp := honly.reg _ (Frame.not_clobbers_framePointer f₁ expr.containsCalls)
    have honly₂ := hu.only
    rw [hfp] at honly₂
    have hread₂ : u.read slot.reservation = slot.ty.width.low v := by
      rw [hu.read]
      exact congrArg _ hread
    have hspoils : ∀ reg, slot.reservation.Spoils reg → f₁.Clobbers expr.containsCalls reg :=
      fun reg hreg => hreg.imp_right Or.inl
    refine ⟨h.laid.define h.settled h.position_lt hlookup
      (Frame.not_clobbers_framePointer f₁ expr.containsCalls) hread₂
      ((honly.mono (fun _ => id) fun _ => Or.inr).trans (honly₂.mono hspoils fun _ => Or.inl)), ?_⟩
    have hfree : ChangesOnly (f₁.Clobbers expr.containsCalls)
        (Scratch (s.regs .framePointer) 0 A.setting.bound) s t :=
      honly.mono (fun _ => id) fun a ha => ha.mono (Nat.zero_le _) (Nat.le_refl _)
    exact Moves.of_only hcalls (hfree.trans (honly₂.mono hspoils fun _ => h.scratch hlookup))
  exact Image.reaches_of_ensures hat hall

/-! ## Returns and calls -/

theorem Stands.goes_ret (h : A.Stands f env s) (hplain : expr.Plain) {outcome : Outcome} {next fuel : Nat}
    (hexec : (Stmt.ret expr).exec A.setting.ctx fuel env = some outcome)
    (hcode : (Lower.ret A.signature expr).run σ = (.ok code, τ)) (hf : σ.frames = f :: fs)
    (hafter : A.setting.After τ) (hat : A.image.At pc code)
    (hcalls : expr.containsCalls = true → A.calls = true) : A.Goes f f s pc next outcome := by
  obtain ⟨valueCode, rfl, hvalue⟩ := Lower.ret_ok hcode
  obtain ⟨hat₁, hat₂⟩ := Image.at_append.mp hat
  have hbranch := (Image.at_cons.mp hat₂).1
  simp only [Stmt.exec] at hexec
  rcases hvalue with ⟨hempty, rfl, rfl⟩ | ⟨hempty, hreturned⟩
  · rw [if_pos hempty] at hexec
    cases hexec
    exact fun pc' haddress => .of_branch hbranch haddress (.refl ⟨nofun, .refl s⟩)
  · rw [hempty, if_neg Bool.false_ne_true] at hexec
    obtain ⟨v, hv, rfl⟩ := Option.map_eq_some_iff.mp hexec
    have hvalue : A.image.Reaches pc s (pc + valueCode.length) fun t =>
        t.regs .result = v ∧ A.Moves s t := by
      rcases Lower.returned_ok hreturned with
        ⟨-, temp, exprCode, copyCode, σ₁, σ₂, htemp, hexprCode, hcopy, hrelease, rfl⟩ | ⟨-, hexprCode⟩
      · obtain ⟨reg, rfl, hens⟩ := h.ensures_temp hplain hv htemp hexprCode hf
          (hafter.of_releaseTemp hrelease) hcalls
        refine Image.reaches_of_ensures hat₁ ?_
        rw [Code.ensures_append]
        refine hens.mono fun t ⟨hread, honly⟩ => ?_
        refine (Code.ensures_copy hcopy nofun fun _ => nofun).mono fun u hu => ⟨?_, ?_⟩
        · exact hu.read.trans hread
        · exact (Moves.of_only hcalls honly).trans
            (hu.only.mono (fun _ hreg => Or.inl hreg) fun _ => False.elim)
      · exact (h.reaches_register hplain hv hexprCode hf hafter hat₁ hcalls (fits_result _ _)
          (Or.inl rfl)).mono fun t ht => ⟨ht.1, ht.2.2⟩
    refine fun pc' haddress => hvalue.trans fun t ⟨hread, hmoves⟩ => ?_
    refine .of_branch hbranch haddress (.refl ⟨fun w hw => ?_, hmoves⟩)
    exact hread.trans (Option.some.inj hw)

theorem Stands.reaches_call (h : A.Stands f env s) {callee : String} {args : List Expr}
    (hplain : ∀ arg ∈ args, arg.Plain) {values : List Word} {result : Option Word}
    (hvalues : Expr.evalAll (env.context A.setting.ctx) args = some values)
    (hresult : A.setting.ctx.call callee values = some result) (hne : callee ≠ trapCallee)
    (hcode : (Lower.call callee (Expr.operands args) none).run σ = (.ok code, τ))
    (hf : σ.frames = f :: fs) (hafter : A.setting.After τ) (hat : A.image.At pc code)
    (hcalls : A.calls = true) :
    A.image.Reaches pc s (pc + code.length) fun t => env.Laid f t ∧ A.Moves s t := by
  have hworth : List.Forall₂ h.setting.Worth args values :=
    Setting.worth_all (Expr.evalAll_eq_some hvalues) (fun arg harg => (hplain arg harg).arrayFree)
      (fun arg harg => (hplain arg harg).built.wellTyped)
      fun arg harg v hv => (h.worth (hplain arg harg) hv).evaluates
  rw [Lower.call, if_neg hne, Expr.operands_eq_map] at hcode
  obtain ⟨callCode, resultCode, ty, rfl, hnone, hens⟩ := Setting.ensures_functionCall hworth hresult
    hcode hf (h.after hafter) (h.before fun hc => hc) hcalls
  cases hnone
  rw [List.append_nil] at hat ⊢
  refine Image.reaches_of_ensures hat (A.linked ▸ hens.mono fun t ht => ⟨?_, ?_⟩)
  · exact h.laid.of_only h.settled h.position_lt (Frame.not_clobbers_framePointer _ _) ht.only
  · exact Moves.of_only (fun _ => hcalls) ht.only

end Activation

end ArmBackend
