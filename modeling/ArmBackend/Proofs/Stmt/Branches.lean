import ArmBackend.Proofs.Machine.References
import ArmBackend.Proofs.Stmt.Labels
import ArmBackend.Proofs.Stmt.Outcome

/-!
# Where statements branch to

A branch in the code of a statement leads to a label of that code, to the end of its function, or to the
innermost loop around the statement.
-/

namespace ArmBackend

open Session (onFrame_ok Tight)

/-- Where statements of a function may leave to from inside of these loops, the innermost one first. -/
def Label.Exits (function : String) (loops : List Nat) (label : Label) : Prop :=
  label = .returnOf function ∨
    ∃ id, loops.head? = some id ∧ (label = .loopCond id ∨ label = .loopExit id)

/-- Every branch leads to a label of the code, or to one of `exits`. -/
def Code.Closed (exits : Label → Prop) (code : Code) : Prop :=
  ∀ label, .branch label ∈ code.references → label ∈ code.labels ∨ exits label

theorem Session.Tight.frames {α : Type} {step : CompileM α} {a : α} {σ τ : Session} {f : Frame}
    {fs : List Frame} (h : Tight step) (hrun : step.run σ = (.ok a, τ)) (hf : σ.frames = f :: fs) :
    ∃ g, τ.frames = g :: fs ∧ g.loops = f.loops := by
  have hview := (h σ).view
  rw [hrun] at hview
  exact frames_of_outline hview hf

namespace Code.Closed

variable {exits : Label → Prop} {a b code : Code} {calls : Prop} {writes : Int → Ty → Prop}

theorem of_straight (h : Straight calls writes code) : Closed exits code :=
  fun label hmem => absurd hmem (h.branch_not_mem label)

theorem branch {label : Label} (h : exits label) : Closed exits (ofInstrs [.b label]) := by
  intro other hmem
  obtain rfl : other = label := by simpa [Instr.reference?] using hmem
  exact Or.inr h

theorem append (ha : Closed exits a) (hb : Closed exits b) : Closed exits (a ++ b) := by
  intro label hmem
  rw [references_append, List.mem_append] at hmem
  rw [labels_append, List.mem_append]
  rcases hmem with hmem | hmem
  · exact (ha label hmem).imp_left Or.inl
  · exact (hb label hmem).imp_left Or.inr

end Code.Closed

open Code (Closed)
open Label (Exits)

variable {σ τ : Session} {f : Frame} {fs : List Frame} {code : Code}

namespace Lower

theorem store_closed {exits : Label → Prop} {pointer expr : Expr} (hf : σ.frames = f :: fs)
    (h : (store pointer expr).run σ = (.ok code, τ)) : Closed exits code := by
  obtain ⟨g, hg, -⟩ := store_still.tight.frames h hf
  obtain ⟨setup, pointee, rfl, hstraight⟩ :=
    store_straight hf h hg (fun _ => trivial) (fun _ => trivial)
  exact (Closed.of_straight hstraight).append fun label hmem => by cases hmem

theorem ret_closed {signature : Signature} {expr : Expr} (hf : σ.frames = f :: fs)
    (h : (ret signature expr).run σ = (.ok code, τ)) : Closed (Exits signature.name f.loops) code := by
  obtain ⟨g, hg, -⟩ := ret_still.tight.frames h hf
  obtain ⟨valueCode, rfl, hvalue⟩ := ret_ok h
  refine .append ?_ (.branch (Or.inl rfl))
  rcases hvalue with ⟨-, rfl, -⟩ | ⟨-, hreturned⟩
  · exact nofun
  · exact .of_straight (returned_straight hf hreturned hg fun _ => trivial)

theorem leave_closed {exit : LoopExit} {function : String} {label : Nat → Label}
    (hlabel : ∀ id, label id = .loopCond id ∨ label id = .loopExit id) (hf : σ.frames = f :: fs)
    (h : (leave exit label).run σ = (.ok code, τ)) : Closed (Exits function f.loops) code := by
  obtain ⟨f', fs', id, hframes, hid, -, rfl⟩ := leave_ok h
  cases hf.symm.trans hframes
  exact .branch (Or.inr ⟨id, hid, hlabel id⟩)

end Lower

namespace Stmt

variable {signature : Signature}

theorem lowerBlock_closed_of {stmts : List Stmt}
    (hstmts : ∀ stmt ∈ stmts, ∀ {σ τ f code}, (stmt.lower signature).run σ = (.ok code, τ) →
      σ.frames = f :: fs → Closed (Exits signature.name f.loops) code)
    (h : (lowerBlock signature stmts).run σ = (.ok code, τ)) (hf : σ.frames = f :: fs) :
    Closed (Exits signature.name f.loops) code := by
  induction stmts generalizing σ code f with
  | nil =>
    cases h
    exact nofun
  | cons stmt stmts ih =>
    obtain ⟨stmtCode, restCode, σ₁, hstmt, hrest, rfl⟩ := block_cons_ok h
    obtain ⟨f₁, hf₁, hloops⟩ := (stmt.lower_tight).frames hstmt hf
    refine (hstmts stmt List.mem_cons_self hstmt hf).append ?_
    rw [← hloops]
    exact ih (fun other hother => hstmts other (List.mem_cons_of_mem _ hother)) hrest hf₁

theorem lower_closed (stmt : Stmt) (h : (stmt.lower signature).run σ = (.ok code, τ))
    (hf : σ.frames = f :: fs) : Closed (Exits signature.name f.loops) code := by
  induction stmt using Stmt.induct generalizing σ τ code f with
  | declare ty name =>
    obtain ⟨rfl, -⟩ := declare_ok h
    exact nofun
  | init ty name value =>
    obtain ⟨g, hg, -⟩ := Lower.init_still.tight.frames h hf
    exact .of_straight (Lower.init_straight hf h hg fun _ => trivial)
  | assign name value =>
    obtain ⟨g, hg, -⟩ := Lower.assign_still.tight.frames h hf
    obtain ⟨slot, -, hstraight⟩ := Lower.assign_straight hf h hg fun _ => trivial
    exact .of_straight hstraight
  | store pointer value => exact Lower.store_closed hf h
  | ret value => exact Lower.ret_closed hf h
  | call callee args =>
    obtain ⟨g, hg, -⟩ := (Stmt.call callee args).lower_tight.frames h hf
    exact .of_straight (Lower.discarded_straight hf h hg trivial)
  | ifElse cond thenBlock elseBlock ihthen ihelse =>
    obtain ⟨id, condCode, thenCode, elseCode, σ₁, σ₂, σ₃, hid, hcond, hthen, helse, rfl⟩ := ifElse_ok h
    obtain ⟨f₁, hf₁, hloops₁⟩ := Session.freshIf_tight.frames hid hf
    obtain ⟨f₂, hf₂, hloops₂⟩ := Lower.condition_still.tight.frames hcond hf₁
    obtain ⟨f₃, hf₃, hloops₃⟩ := (lowerBlock_tight thenBlock).frames hthen hf₂
    have hcondCode := (Lower.condition_straight hf₁ hcond hf₂ fun _ => trivial).branch_not_mem
    have hthenCode := lowerBlock_closed_of ihthen hthen hf₂
    have helseCode := lowerBlock_closed_of ihelse helse hf₃
    rw [hloops₃] at helseCode
    rw [← hloops₁, ← hloops₂]
    intro label hmem
    have hcases : label = .ifFalse id ∨ .branch label ∈ thenCode.references ∨ label = .ifExit id ∨
        .branch label ∈ elseCode.references := by
      simpa [hcondCode, Instr.reference?] using hmem
    rcases hcases with rfl | hmem | rfl | hmem
    · simp
    · exact (hthenCode label hmem).imp_left fun hlabel => by simp [hlabel]
    · simp
    · exact (helseCode label hmem).imp_left fun hlabel => by simp [hlabel]
  | loop cond body ih =>
    obtain ⟨id, condCode, bodyCode, σ₁, σ₂, hid, hcond, hinLoop, rfl⟩ := loop_ok h
    obtain ⟨σ₃, σ₄, hpush, hbody, hpop⟩ := Session.inLoop_ok hinLoop
    obtain ⟨f₁, hf₁, hloops₁⟩ := Session.freshLoop_tight.frames hid hf
    obtain ⟨f₂, hf₂, hloops₂⟩ := Lower.condition_still.tight.frames hcond hf₁
    obtain ⟨f₃, hf₃, hpushed⟩ := (onFrame_ok hpush).1.frames hf₂
    cases hpushed
    have hcondCode := (Lower.condition_straight hf₁ hcond hf₂ fun _ => trivial).branch_not_mem
    have hbodyCode := lowerBlock_closed_of ih hbody hf₃
    rw [← hloops₁, ← hloops₂]
    intro label hmem
    have hcases : label = .loopExit id ∨ .branch label ∈ bodyCode.references ∨ label = .loopCond id := by
      simpa [hcondCode, Instr.reference?] using hmem
    rcases hcases with rfl | hmem | rfl
    · simp
    · -- The innermost loop around the body is this one.
      rcases hbodyCode label hmem with hlabel | hreturn | ⟨id', hid', hlabel⟩
      · simp [hlabel]
      · exact Or.inr (Or.inl hreturn)
      · cases hid'
        rcases hlabel with rfl | rfl <;> simp
    · simp
  | breakLoop => exact Lower.leave_closed (fun _ => Or.inr rfl) hf h
  | continueLoop => exact Lower.leave_closed (fun _ => Or.inl rfl) hf h

theorem lowerBlock_closed {stmts : List Stmt} (h : (lowerBlock signature stmts).run σ = (.ok code, τ))
    (hf : σ.frames = f :: fs) : Closed (Exits signature.name f.loops) code :=
  lowerBlock_closed_of (fun stmt _ _ _ _ _ => stmt.lower_closed) h hf

end Stmt

end ArmBackend
