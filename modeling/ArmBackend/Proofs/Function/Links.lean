import ArmBackend.Proofs.Function.Discipline
import ArmBackend.Proofs.Function.Progress
import ArmBackend.Proofs.Stmt.Branches
import ArmBackend.Proofs.Stmt.Links

/-!
# What the code of a function refers to

The code of a function branches to its own labels only. What it calls is what the statements of its body
call.
-/

namespace ArmBackend

open Session (Links)
open Code (Closed)
open Label (Exits)

variable {σ τ : Session} {f : Frame} {fs : List Frame} {code : Code}

namespace Function

def callees (function : Function) : List String := Stmt.blockCallees function.body

theorem bindParams_links {params : List Param} {regs : List Register}
    (h : (bindParams params regs).run σ = (.ok code, τ)) :
    code.references = [] ∧ Links [] [] σ τ := by
  induction params generalizing σ code regs with
  | nil =>
    cases h
    exact ⟨rfl, .refl _⟩
  | cons param params ih =>
    cases regs with
    | nil => cases h
    | cons reg regs =>
      obtain ⟨slot, copyCode, restCode, σ₁, hslot, hcopy, hrest, rfl⟩ := bindParams_cons_ok h
      obtain ⟨hrefs, hlinks⟩ := ih hrest
      exact ⟨by simp [Code.references_copy hcopy, hrefs], (Links.onFrame hslot).trans hlinks⟩

theorem implicitReturn_links {signature : Signature}
    (h : (implicitReturn signature).run σ = (.ok code, τ)) : Links [] code.references σ τ := by
  rcases implicitReturn_ok h with ⟨-, hret⟩ | ⟨-, rfl, rfl⟩
  · exact Stmt.lower_links (.ret (.literal (.int 0) .int)) hret
  · exact .refl _

theorem implicitReturn_closed {signature : Signature}
    (h : (implicitReturn signature).run σ = (.ok code, τ)) (hf : σ.frames = f :: fs) :
    Closed (Exits signature.name f.loops) code := by
  rcases implicitReturn_ok h with ⟨-, hret⟩ | ⟨-, rfl, -⟩
  · exact Stmt.lower_closed _ hret hf
  · exact nofun

variable {function : Function}

theorem lowerBody_links (h : function.lowerBody.run σ = (.ok code, τ)) :
    Links function.callees code.references σ τ := by
  obtain ⟨paramCode, bodyCode, returnCode, σ₁, σ₂, hparams, hbody, hret, rfl⟩ := lowerBody_ok h
  obtain ⟨hrefs, hlinks⟩ := bindParams_links hparams
  have hall := (hlinks.trans (Stmt.lowerBlock_links hbody)).trans (implicitReturn_links hret)
  simpa [hrefs, callees] using hall

/-- The only way out of a body is the return of the function. -/
theorem lowerBody_closed (h : function.lowerBody.run σ = (.ok code, τ)) (hf : σ.frames = {} :: fs) :
    Closed (· = .returnOf function.name) code := by
  obtain ⟨paramCode, bodyCode, returnCode, σ₁, σ₂, hparams, hbody, hret, rfl⟩ := lowerBody_ok h
  obtain ⟨f₁, hf₁, hloops₁⟩ := bindParams_still.tight.frames hparams hf
  obtain ⟨f₂, hf₂, hloops₂⟩ := (Stmt.lowerBlock_tight _).frames hbody hf₁
  obtain ⟨hrefs, -⟩ := bindParams_links hparams
  have hnone : Closed (Exits function.name f₁.loops) paramCode := fun label hmem => by
    rw [hrefs] at hmem
    cases hmem
  have hreturn := implicitReturn_closed hret hf₂
  rw [hloops₂] at hreturn
  intro label hmem
  refine (((hnone.append (Stmt.lowerBlock_closed hbody hf₁)).append hreturn) label hmem).imp_right ?_
  rintro (heq | ⟨id, hid, -⟩)
  · exact heq
  · -- No loop is open where the body begins.
    rw [hloops₁] at hid
    cases hid

theorem compile_links (h : function.compile.run σ = (.ok code, τ)) :
    Links function.callees code.references σ τ := by
  obtain ⟨bodyCode, frame, layout, σ₁, frames, hbody, -, -, rfl, rfl⟩ := compile_ok h
  have hbody₁ := lowerBody_links hbody
  have hopen : Links [] [] σ { σ with frames := {} :: σ.frames } := .quiet rfl rfl rfl rfl rfl
  have hclose : Links [] [] σ₁ (Session.recordFunction function.name frame layout.totalSize
      { σ₁ with frames }) := .quiet rfl rfl rfl rfl rfl
  simpa using (hopen.trans hbody₁).trans hclose

theorem compile_closed (h : function.compile.run σ = (.ok code, τ)) : Closed (fun _ => False) code := by
  obtain ⟨bodyCode, frame, layout, σ₁, frames, hbody, -, -, rfl, rfl⟩ := compile_ok h
  intro label hmem
  have hbranch : .branch label ∈ bodyCode.references := by simpa using hmem
  rcases lowerBody_closed hbody rfl label hbranch with hlabel | rfl
  · exact Or.inl (by simp [hlabel])
  · exact Or.inl (by simp)

end Function

end ArmBackend
