import ArmBackend.Proofs.Function.Inversion
import ArmBackend.Proofs.Stmt.Labels
import ArmBackend.Proofs.Stmt.Simulation

/-!
# Progress of compiling a function

What the compilation of a function does to the session, and the labels of its code.
-/

namespace ArmBackend

open Session (onFrame Advances onFrame_ok)
open Code (Labelled)
open ArmBackend.Frame (Peaks)

/-! ## The largest frame -/

namespace Stats

/-- No frame has been recorded as long as none is the largest. -/
def Sound (stats : Stats) : Prop := stats.largestFunction = "" → stats.largestFrame = 0

variable (stats : Stats) (name : String) (spills frameSize : Nat)

theorem recordFunction_largestFrame (hsound : stats.Sound) :
    frameSize ≤ (stats.recordFunction name spills frameSize).largestFrame ∧
      stats.largestFrame ≤ (stats.recordFunction name spills frameSize).largestFrame := by
  simp only [recordFunction]
  split
  case isTrue h =>
    simp only [Bool.or_eq_true, String.isEmpty_iff, decide_eq_true_eq] at h
    refine ⟨Nat.le_refl _, ?_⟩
    rcases h with h | h
    · exact hsound h ▸ Nat.zero_le _
    · exact Nat.le_of_lt h
  case isFalse h =>
    simp only [Bool.or_eq_true, decide_eq_true_eq, not_or] at h
    exact ⟨Nat.le_of_not_lt h.2, Nat.le_refl _⟩

theorem Sound.recordFunction {stats : Stats} (hsound : stats.Sound) {name : String} (hname : name ≠ "")
    (spills frameSize : Nat) : (stats.recordFunction name spills frameSize).Sound := by
  simp only [Stats.recordFunction]
  split
  · exact fun h => absurd h hname
  · exact hsound

def Within (stats stats' : Stats) : Prop :=
  stats.Sound → stats'.Sound ∧ stats.largestFrame ≤ stats'.largestFrame

theorem Within.refl (stats : Stats) : stats.Within stats := fun h => ⟨h, Nat.le_refl _⟩

theorem Within.trans {a b c : Stats} (h : a.Within b) (h' : b.Within c) : a.Within c := fun hsound =>
  have ⟨hsound', hle⟩ := h hsound
  have ⟨hsound'', hle'⟩ := h' hsound'
  ⟨hsound'', Nat.le_trans hle hle'⟩

end Stats

theorem Session.Advances.sound {R : Frame → Frame → Prop} {σ τ : Session} (h : Advances R σ τ)
    (hsound : σ.stats.Sound) : τ.stats.Sound := fun hlargest =>
  h.largestFrame.trans (hsound (h.largestFunction.symm.trans hlargest))

variable {σ τ : Session} {code : Code} {f : Frame} {fs : List Frame} {R : Frame → Frame → Prop}

namespace Function

/-! ## Parameters and the implicit return -/

theorem bindParams_advances (hrests : ∀ {f g : Frame}, f.Rests g → R f g)
    (htrans : ∀ {f g h}, R f g → R g h → R f h)
    (hadd : ∀ {f g : Frame} {ty : Ty} {name : String} {slot : Slot},
      (Frame.addVariable ty name).run f = (.ok slot, g) → R f g)
    {params : List Param} {regs : List Register}
    (h : (bindParams params regs).run σ = (.ok code, τ)) : Advances R σ τ := by
  induction params generalizing σ code regs with
  | nil =>
    cases h
    exact (Advances.refl _).mono hrests
  | cons param params ih =>
    cases regs with
    | nil => cases h
    | cons reg regs =>
      obtain ⟨slot, copyCode, restCode, σ₁, hslot, -, hrest, -⟩ := bindParams_cons_ok h
      exact ((onFrame_ok hslot).1.mono hadd).comp (ih hrest) htrans

theorem bindParams_extends {params : List Param} {regs : List Register}
    (h : (bindParams params regs).run σ = (.ok code, τ)) : Advances Frame.Extends σ τ :=
  bindParams_advances Frame.Rests.extends Frame.Extends.trans Frame.addVariable_extends h

theorem bindParams_peaks {params : List Param} {regs : List Register}
    (h : (bindParams params regs).run σ = (.ok code, τ)) : Advances Peaks σ τ :=
  bindParams_advances Frame.passage_peaks.of_rests Frame.passage_peaks.trans Frame.addVariable_peaks h

theorem bindParams_labels {params : List Param} {regs : List Register}
    (h : (bindParams params regs).run σ = (.ok code, τ)) : code.labels = [] := by
  induction params generalizing σ code regs with
  | nil =>
    cases h
    rfl
  | cons param params ih =>
    cases regs with
    | nil => cases h
    | cons reg regs =>
      obtain ⟨slot, copyCode, restCode, σ₁, -, hcopy, hrest, rfl⟩ := bindParams_cons_ok h
      have hstraight : Code.Straight False slot.reservation.Occupies copyCode :=
        Code.straight_copy hcopy nofun
      rw [Code.labels_append, hstraight.labels, ih hrest]
      rfl

theorem inner_return_zero : (Stmt.ret (.literal (.int 0) .int)).Inner :=
  ⟨.literal (.int 0), rfl⟩

theorem implicitReturn_rests {signature : Signature}
    (h : (implicitReturn signature).run σ = (.ok code, τ)) : Advances Frame.Rests σ τ := by
  rcases implicitReturn_ok h with ⟨-, hret⟩ | ⟨-, -, rfl⟩
  · exact Stmt.lower_rests inner_return_zero hret
  · exact .refl _

theorem implicitReturn_labelled {signature : Signature}
    (h : (implicitReturn signature).run σ = (.ok code, τ)) (hf : σ.frames = f :: fs) :
    Labelled σ τ code := by
  rcases implicitReturn_ok h with ⟨-, hret⟩ | ⟨-, rfl, -⟩
  · exact Stmt.lower_labelled _ hret hf
  · exact .of_nil rfl

/-! ## The body -/

variable {function : Function}

theorem lowerBody_extends (houter : ∀ stmt ∈ function.body, stmt.Outer)
    (h : function.lowerBody.run σ = (.ok code, τ)) : Advances Frame.Extends σ τ := by
  obtain ⟨paramCode, bodyCode, returnCode, σ₁, σ₂, hparams, hbody, hret, -⟩ := lowerBody_ok h
  have hbody₁ := (bindParams_extends hparams).comp (Stmt.lowerBlock_extends houter hbody)
    Frame.Extends.trans
  exact hbody₁.comp (implicitReturn_rests hret) fun hfg hgh => hfg.trans hgh.extends

theorem lowerBody_peaks (h : function.lowerBody.run σ = (.ok code, τ)) : Advances Peaks σ τ := by
  obtain ⟨paramCode, bodyCode, returnCode, σ₁, σ₂, hparams, hbody, hret, -⟩ := lowerBody_ok h
  have hbody₁ := (bindParams_peaks hparams).comp (Stmt.lowerBlock_peaks hbody) Frame.passage_peaks.trans
  exact hbody₁.comp ((implicitReturn_rests hret).mono Frame.passage_peaks.of_rests)
    Frame.passage_peaks.trans

theorem lowerBody_labelled (h : function.lowerBody.run σ = (.ok code, τ)) (hf : σ.frames = f :: fs) :
    Labelled σ τ code := by
  obtain ⟨paramCode, bodyCode, returnCode, σ₁, σ₂, hparams, hbody, hret, rfl⟩ := lowerBody_ok h
  have hparams₁ := bindParams_peaks hparams
  have hbody₁ := Stmt.lowerBlock_peaks hbody
  obtain ⟨f₁, hf₁, -⟩ := hparams₁.frames hf
  obtain ⟨f₂, hf₂, -⟩ := hbody₁.frames hf₁
  have hcode : Labelled σ σ₂ (paramCode ++ bodyCode) := (Labelled.of_nil (bindParams_labels hparams)).append
    (Stmt.lowerBlock_labelled hbody hf₁) hparams₁.toCounts hbody₁.toCounts
  exact hcode.append (implicitReturn_labelled hret hf₂) (hparams₁.toCounts.trans hbody₁.toCounts)
    (implicitReturn_rests hret).toCounts

/-! ## The function -/

end Function

theorem FrameLayout.labels_prologue (layout : FrameLayout) : layout.prologue.labels = [] := by
  rw [prologue]
  split <;> split <;> simp [Code.labels_adjustStack]

theorem FrameLayout.labels_epilogue (layout : FrameLayout) : layout.epilogue.labels = [] := by
  rw [epilogue]
  split <;> split <;> simp [Code.labels_adjustStack]

theorem Options.labels_functionHeader (options : Options) (name : String) :
    (options.functionHeader name).labels = [options.functionLabel name] := by
  simp only [functionHeader]
  split <;> rfl

namespace Function

variable {function : Function}

structure Follows (σ τ : Session) : Prop extends Session.Counts σ τ where
  options : τ.options = σ.options
  frames : τ.frames = σ.frames

theorem Follows.refl (σ : Session) : Follows σ σ := ⟨.refl σ, rfl, rfl⟩

theorem Follows.trans {σ τ υ : Session} (h : Follows σ τ) (h' : Follows τ υ) : Follows σ υ where
  toCounts := h.toCounts.trans h'.toCounts
  options := h'.options.trans h.options
  frames := h'.frames.trans h.frames

theorem compile_follows (h : function.compile.run σ = (.ok code, τ)) : Follows σ τ := by
  obtain ⟨bodyCode, frame, layout, σ₁, frames, hbody, hg, -, rfl, -⟩ := compile_ok h
  have hpeaks := lowerBody_peaks hbody
  obtain ⟨g, hg', -⟩ := hpeaks.frames rfl
  cases hg.symm.trans hg'
  exact ⟨{ hpeaks.toCounts with }, hpeaks.options, rfl⟩

theorem compile_records (hname : function.name ≠ "") (h : function.compile.run σ = (.ok code, τ)) :
    σ.stats.Within τ.stats := by
  obtain ⟨bodyCode, frame, layout, σ₁, frames, hbody, -, -, rfl, -⟩ := compile_ok h
  have hpeaks := lowerBody_peaks hbody
  intro hsound
  have hsound₁ := hpeaks.sound hsound
  have hle := (Stats.recordFunction_largestFrame σ₁.stats function.name frame.spills layout.totalSize
    hsound₁).2
  exact ⟨hsound₁.recordFunction hname _ _, Nat.le_trans (Nat.le_of_eq hpeaks.largestFrame.symm) hle⟩

theorem compile_labels (h : function.compile.run σ = (.ok code, τ)) :
    ∃ bodyCode, Labelled σ τ bodyCode ∧ code.labels =
      σ.options.functionLabel function.name :: bodyCode.labels ++ [.returnOf function.name] := by
  obtain ⟨bodyCode, frame, layout, σ₁, frames, hbody, -, -, rfl, rfl⟩ := compile_ok h
  have hlabelled := lowerBody_labelled hbody rfl
  refine ⟨bodyCode, ⟨hlabelled.between, hlabelled.nodup⟩, ?_⟩
  have hoptions : σ₁.options = σ.options := (lowerBody_peaks hbody).options
  simp [layout.labels_prologue, layout.labels_epilogue, Options.labels_functionHeader, hoptions]

end Function

end ArmBackend
