import ArmBackend.Proofs.Function.Woven
import ArmBackend.Proofs.Stmt.Calls

/-!
# Which functions call out

The code of a function calls out exactly if its body contains a call. Where anything in it writes the link
register, the function saves the frame record first and restores it last.
-/

namespace ArmBackend

variable {σ τ : Session} {code : Code} {layout : FrameLayout}

namespace FrameLayout

theorem prologue_of_saves (h : layout.savesRecord = true) :
    ∃ rest, layout.prologue = .instr (.pushPair .framePointer .linkRegister) :: rest := by
  rw [prologue, if_pos h]
  exact ⟨_, rfl⟩

theorem epilogue_of_saves (h : layout.savesRecord = true) :
    ∃ before, layout.epilogue =
      before ++ Code.ofInstrs [.popPair .framePointer .linkRegister, .ret] := by
  rw [epilogue, if_pos h, List.append_assoc]
  exact ⟨_, rfl⟩

end FrameLayout

namespace Function

variable {function : Function}

theorem bindParams_callsOut {params : List Param} {regs : List Register}
    (h : (bindParams params regs).run σ = (.ok code, τ)) : code.callsOut = false := by
  induction params generalizing σ code regs with
  | nil =>
    cases h
    rfl
  | cons param params ih =>
    cases regs with
    | nil => cases h
    | cons reg regs =>
      obtain ⟨slot, copyCode, restCode, σ₁, -, hcopy, hrest, rfl⟩ := bindParams_cons_ok h
      rw [Code.callsOut_append, (Code.silent_copy hcopy).callsOut, ih hrest, Bool.or_false]

theorem implicitReturn_callsOut {signature : Signature}
    (h : (implicitReturn signature).run σ = (.ok code, τ)) : code.callsOut = false := by
  rcases implicitReturn_ok h with ⟨-, hret⟩ | ⟨-, rfl, -⟩
  · exact Lower.ret_callsOut hret
  · rfl

theorem lowerBody_callsOut (h : function.lowerBody.run σ = (.ok code, τ)) :
    code.callsOut = function.containsCalls := by
  obtain ⟨paramCode, bodyCode, returnCode, σ₁, σ₂, hparams, hbody, hreturn, rfl⟩ := lowerBody_ok h
  rw [Code.callsOut_append, Code.callsOut_append, bindParams_callsOut hparams,
    Stmt.lowerBlock_callsOut hbody, implicitReturn_callsOut hreturn, Bool.false_or, Bool.or_false,
    containsCalls]

theorem compile_callsOut (h : function.compile.run σ = (.ok code, τ)) :
    code.callsOut = function.containsCalls := by
  obtain ⟨bodyCode, frame, layout, σ₁, frames, hbody, -, -, -, rfl⟩ := compile_ok h
  rw [Code.callsOut_append, Code.callsOut_append, Code.callsOut_append,
    (σ₁.options.silent_functionHeader function.name).callsOut, layout.prologue_tallied.callsOut,
    lowerBody_callsOut hbody, (layout.epilogue_tallied (.returnOf function.name) rfl).callsOut,
    Bool.false_or, Bool.false_or, Bool.or_false]

theorem not_instr_functionHeader (options : Options) (name : String) (instr : Instr) :
    Line.instr instr ∉ options.functionHeader name := by
  simp only [Options.functionHeader]
  split <;> simp

/-- A function that writes the link register saves it with the frame pointer before its first instruction
and restores both in front of its return. -/
theorem compile_records_link (h : function.compile.run σ = (.ok code, τ)) {instr : Instr}
    (hmem : Line.instr instr ∈ code) (hwrites : .linkRegister ∈ instr.dests) :
    ∃ between, code = σ.options.functionHeader function.name ++
      .instr (.pushPair .framePointer .linkRegister) :: between ++
      Code.ofInstrs [.popPair .framePointer .linkRegister, .ret] := by
  obtain ⟨bodyCode, frame, layout, σ₁, frames, hbody, hg, hlayout, -, rfl⟩ := compile_ok h
  have hpeaks := lowerBody_peaks hbody
  have hoptions : σ₁.options = σ.options := hpeaks.options
  rw [hoptions] at hmem ⊢
  cases hsaves : layout.savesRecord with
  | true =>
    obtain ⟨opening, hprologue⟩ := FrameLayout.prologue_of_saves hsaves
    obtain ⟨closing, hepilogue⟩ := FrameLayout.epilogue_of_saves hsaves
    refine ⟨opening ++ bodyCode ++ .label (.returnOf function.name) :: closing, ?_⟩
    simp [hprologue, hepilogue]
  | false =>
    -- Nothing in such a function writes the link register.
    have hbare := FrameLayout.bare hlayout hsaves
    obtain ⟨g, hg', -⟩ := hpeaks.frames rfl
    cases hg.symm.trans hg'
    have hleaves := (lowerBody_woven hbody rfl hg).leavesRecord
    rw [hbare.prologue, hbare.epilogue, List.append_nil] at hmem
    rcases List.mem_append.mp hmem with hmem | hmem
    · rcases List.mem_append.mp hmem with hmem | hmem
      · exact absurd hmem (not_instr_functionHeader _ _ instr)
      · have hcalls' := ((hleaves instr hmem).linkRegister hwrites).2
        exact absurd hcalls' (Bool.eq_false_iff.mp hbare.calls)
    · obtain rfl : instr = .ret := by simpa [Code.ofInstrs] using hmem
      cases hwrites

end Function

end ArmBackend
