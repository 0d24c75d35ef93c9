import ArmBackend.Proofs.Frame.Growth
import ArmBackend.Session

/-!
# Progress of a session

What a step of a compilation may do to the session apart from its innermost frame: tables stay,
texts are added, and ids are used up.
-/

namespace ArmBackend

/-- A concrete step succeeds with an outcome of which a test holds. -/
theorem StepM.exists_of_any {σ α : Type} (result : Except CompileError α × σ) (test : α → σ → Bool)
    (h : result.1.toOption.any (test · result.2) = true) :
    ∃ a s, result = (.ok a, s) ∧ test a s = true := by
  obtain ⟨e | a, s⟩ := result
  · cases h
  · exact ⟨a, s, rfl, h⟩

namespace Session

/-- Labels and texts are numbered in the order of the text. -/
structure Counts (σ τ : Session) : Prop where
  texts : σ.data.texts <+: τ.data.texts
  nextIf : σ.nextIf ≤ τ.nextIf
  nextLoop : σ.nextLoop ≤ τ.nextLoop

namespace Counts

theorem refl (σ : Session) : Counts σ σ := ⟨List.prefix_rfl, Nat.le_refl _, Nat.le_refl _⟩

theorem trans {σ τ υ : Session} (h : Counts σ τ) (h' : Counts τ υ) : Counts σ υ :=
  ⟨h.texts.trans h'.texts, Nat.le_trans h.nextIf h'.nextIf, Nat.le_trans h.nextLoop h'.nextLoop⟩

end Counts

/-- `τ` is `σ` after some steps that change the innermost frame as `R` says. -/
structure Advances (R : Frame → Frame → Prop) (σ τ : Session) : Prop extends Counts σ τ where
  options : τ.options = σ.options
  declared : τ.declared = σ.declared
  defined : τ.defined = σ.defined
  largestFrame : τ.stats.largestFrame = σ.stats.largestFrame
  largestFunction : τ.stats.largestFunction = σ.stats.largestFunction
  frames : ∀ {f fs}, σ.frames = f :: fs → ∃ g, τ.frames = g :: fs ∧ R f g

namespace Advances

variable {R S T : Frame → Frame → Prop} {σ τ υ : Session}

theorem mono (h : Advances R σ τ) (hRS : ∀ {f g}, R f g → S f g) : Advances S σ τ :=
  { h with frames := fun hf => (h.frames hf).imp fun _ hg => ⟨hg.1, hRS hg.2⟩ }

theorem comp (h : Advances R σ τ) (h' : Advances S τ υ)
    (hT : ∀ {f g k}, R f g → S g k → T f k) : Advances T σ υ where
  toCounts := h.toCounts.trans h'.toCounts
  options := h'.options.trans h.options
  declared := h'.declared.trans h.declared
  defined := h'.defined.trans h.defined
  largestFrame := h'.largestFrame.trans h.largestFrame
  largestFunction := h'.largestFunction.trans h.largestFunction
  frames := fun hf =>
    have ⟨_, hg, hR⟩ := h.frames hf
    have ⟨k, hk, hS⟩ := h'.frames hg
    ⟨k, hk, hT hR hS⟩

theorem refl (σ : Session) : Advances Frame.Rests σ σ :=
  ⟨.refl σ, rfl, rfl, rfl, rfl, rfl, fun hf => ⟨_, hf, .refl _⟩⟩

end Advances

variable {R : Frame → Frame → Prop} {α β : Type} {σ τ : Session}

/-! ## Steps -/

theorem onFrame_run_cons {operation : FrameM α} {a : α} {f g : Frame} {fs : List Frame}
    (hf : σ.frames = f :: fs) (h : operation.run f = (.ok a, g)) :
    (onFrame operation).run σ = (.ok a, { σ with frames := g :: fs }) := by
  rw [onFrame_run, hf]
  simp only [h]

theorem inFrame_run {step : CompileM α} {a : α} {frame : Frame} {frames : List Frame}
    (h : step.run { σ with frames := {} :: σ.frames } = (.ok a, τ)) (hframes : τ.frames = frame :: frames) :
    (inFrame step).run σ = (.ok (a, frame), { τ with frames }) := by
  refine StepM.run_bind_eq_ok.mpr ⟨(), _, rfl, StepM.run_bind_eq_ok.mpr ⟨.ok a, τ, ?_, ?_⟩⟩
  · rw [StepM.run_attempt, h]
  · have hpop : popFrame.run τ = (.ok frame, { τ with frames }) := by simp [popFrame, hframes]
    exact StepM.run_bind_eq_ok.mpr ⟨frame, _, hpop, rfl⟩

theorem onFrame_ok {operation : FrameM α} {a : α}
    (h : (onFrame operation).run σ = (.ok a, τ)) :
    Advances (fun f g => operation.run f = (.ok a, g)) σ τ ∧
      ∃ f fs g, σ.frames = f :: fs ∧ operation.run f = (.ok a, g) ∧
        τ = { σ with frames := g :: fs } := by
  rw [onFrame_run] at h
  split at h
  · cases h
  case h_2 f fs hframes =>
    obtain ⟨hok, rfl⟩ := Prod.mk.inj h
    have hrun : operation.run f = (.ok a, (operation.run f).2) := Prod.ext hok rfl
    refine ⟨⟨{ Counts.refl σ with }, rfl, rfl, rfl, rfl, rfl, fun hf => ?_⟩,
      f, fs, _, hframes, hrun, rfl⟩
    rw [hframes] at hf
    cases hf
    exact ⟨_, rfl, hrun⟩

def Keeps (R : Frame → Frame → Prop) (step : CompileM α) : Prop :=
  ∀ {σ a τ}, step.run σ = (.ok a, τ) → Advances R σ τ

/-! ## What the innermost frame has no part in -/

theorem markUsed_eq (name : String) (session : Session) :
    ∃ usedBuiltins, markUsed name session = { session with usedBuiltins } := by
  rw [markUsed]
  split
  · split
    · exact ⟨session.usedBuiltins, rfl⟩
    · exact ⟨_, rfl⟩
  · exact ⟨session.usedBuiltins, rfl⟩

theorem markUsed_advances (name : String) (session : Session) :
    Advances Frame.Rests session (markUsed name session) := by
  obtain ⟨usedBuiltins, h⟩ := markUsed_eq name session
  rw [h]
  exact { Advances.refl session with }

theorem recordCall_advances (session : Session) :
    Advances Frame.Rests session (recordCall session) := { Advances.refl session with }

theorem recordSaves_advances (count : Nat) (session : Session) :
    Advances Frame.Rests session (recordSaves count session) := { Advances.refl session with }

theorem intern_ok {text : String} {label : Label}
    (h : (intern text).run σ = (.ok label, τ)) :
    Advances Frame.Rests σ τ ∧
      ∃ id, label = .datum .string id ∧ τ.data.texts.idxOf? text = some id := by
  cases h
  simp only [StaticData.intern]
  cases hid : σ.data.texts.idxOf? text with
  | some id => exact ⟨{ Advances.refl σ with }, id, rfl, hid⟩
  | none =>
    refine ⟨{ Advances.refl σ with texts := List.prefix_append _ _ }, _, rfl, ?_⟩
    have hnot : text ∉ σ.data.texts := by simpa using hid
    refine List.idxOf?_eq_some_iff.mpr ⟨by simp, by simp, fun j hj => ?_⟩
    rw [List.getElem_append_left hj]
    exact fun heq => hnot (heq ▸ List.getElem_mem _)

theorem signatureOf_ok {name : String} {signature : Signature}
    (h : (signatureOf name).run σ = (.ok signature, τ)) :
    (newest? σ.declared name).or (newest? σ.defined name) = some signature ∧ τ = σ := by
  simp only [signatureOf, StepM.run_bind, StepM.run_get] at h
  split at h <;> cases h
  exact ⟨‹_›, rfl⟩

end Session

end ArmBackend
