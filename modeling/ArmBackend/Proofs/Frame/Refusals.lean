import ArmBackend.Proofs.Frame.History

/-!
# Operations that a frame refuses

An operation fails for one of two reasons: it asks for storage of a type that has none, or it breaks
the discipline of the frame. Either way the frame stays as it was.
-/

namespace ArmBackend.Frame

/-! ## Reasons -/

def Op.ty? : Op → Option Ty
  | .addVariable ty _ | .reserveVariable ty | .reserveTemp ty => some ty
  | .releaseVariable | .releaseTemp | .pushLoop _ | .popLoop => none

def Op.onVariables : Op → Bool
  | .addVariable .. | .reserveVariable _ | .releaseVariable => true
  | .reserveTemp _ | .releaseTemp | .pushLoop _ | .popLoop => false

def Op.Unsized (op : Op) : Prop := ∃ ty ∈ op.ty?, ty.size = 0

/-- The operation breaks the discipline of this frame. -/
inductive Op.Breaches (f : Frame) : Op → Prop
  | belowTemporaries {op : Op} (onVariables : op.onVariables = true) (live : f.temporaries ≠ []) :
      Breaches f op
  | noVariable (none : f.locals = []) : Breaches f .releaseVariable
  | noTemporary (none : f.temporaries = []) : Breaches f .releaseTemp

namespace Op

variable {f : Frame} {op : Op} {ty : Ty}

theorem unsized_iff (hty : op.ty? = some ty) : op.Unsized ↔ ty.size = 0 := by
  simp [Unsized, hty]

theorem not_unsized (hty : op.ty? = none) : ¬op.Unsized := by simp [Unsized, hty]

theorem breaches_iff (hty : op.ty? = some ty) :
    op.Breaches f ↔ op.onVariables = true ∧ f.temporaries ≠ [] := by
  constructor
  · intro h
    cases h with
    | belowTemporaries onVariables live => exact ⟨onVariables, live⟩
    | noVariable => cases hty
    | noTemporary => cases hty
  · exact fun ⟨onVariables, live⟩ => .belowTemporaries onVariables live

theorem breaches_releaseVariable :
    releaseVariable.Breaches f ↔ f.temporaries ≠ [] ∨ f.locals = [] := by
  constructor
  · intro h
    cases h with
    | belowTemporaries _ live => exact Or.inl live
    | noVariable none => exact Or.inr none
  · rintro (live | none)
    · exact .belowTemporaries rfl live
    · exact .noVariable none

theorem breaches_releaseTemp : releaseTemp.Breaches f ↔ f.temporaries = [] := by
  constructor
  · intro h
    cases h with
    | belowTemporaries onVariables _ => cases onVariables
    | noTemporary none => exact none
  · exact .noTemporary

/-! ## Verdicts -/

/-- What can come of an operation on a frame. -/
inductive Verdict (f : Frame) (op : Op) : Except CompileError Unit × Frame → Prop
  | done (g : Frame) (sized : ¬op.Unsized) (disciplined : ¬op.Breaches f) : Verdict f op (.ok (), g)
  | breach (e : CompileError) (breaches : op.Breaches f) (kind : e.kind = .internal) :
      Verdict f op (.error e, f)
  | unsized (e : CompileError) (unsized : op.Unsized) (disciplined : ¬op.Breaches f)
      (kind : e.kind = .user) : Verdict f op (.error e, f)

namespace Verdict

variable {outcome : Except CompileError Unit × Frame}

theorem fails_iff (h : Verdict f op outcome) :
    (∃ e, outcome.1 = .error e) ↔ op.Unsized ∨ op.Breaches f := by
  cases h with
  | done g sized disciplined => simp [sized, disciplined]
  | breach e breaches => simp [breaches]
  | unsized e unsized => simp [unsized]

theorem of_error {e : CompileError} (h : Verdict f op outcome) (he : outcome.1 = .error e) :
    outcome.2 = f ∧
      (op.Breaches f ∧ e.kind = .internal ∨ ¬op.Breaches f ∧ e.kind = .user) := by
  cases h with
  | done => cases he
  | breach e breaches kind =>
    cases he
    exact ⟨rfl, Or.inl ⟨breaches, kind⟩⟩
  | unsized e _ disciplined kind =>
    cases he
    exact ⟨rfl, Or.inr ⟨disciplined, kind⟩⟩

end Verdict

end Op

/-! ## What each operation comes to -/

open Op (Verdict)

variable {f : Frame} {ty : Ty}

theorem requireNoTemporaries_run (action : VariableAction) (f : Frame) :
    (requireNoTemporaries action).run f =
      if f.temporaries = [] then (.ok (), f)
      else (.error (.internal (.variableBelowTemporaries action f.temporaries.length)), f) := by
  simp only [requireNoTemporaries, StepM.run_bind, StepM.run_get, StepM.run_ite, StepM.run_pure,
    StepM.run_throw, List.isEmpty_iff]

theorem reserveVariable_run (ty : Ty) (f : Frame) :
    (reserveVariable ty).run f =
      if f.temporaries = [] then
        if ty.size = 0 then (.error (.typeViolation (.unsizedSlot ty)), f)
        else
          let slot : Slot := ⟨f.position + f.slotSize ty, ty⟩
          (.ok slot, { f.withSlot ty with locals := slot :: f.locals })
      else (.error (.internal (.variableBelowTemporaries .reserve f.temporaries.length)), f) := by
  rw [reserveVariable, StepM.run_bind, requireNoTemporaries_run]
  by_cases hquiet : f.temporaries = []
  · simp only [if_pos hquiet, StepM.run_bind, takeSlot_run]
    by_cases hsize : ty.size = 0
    · simp only [if_pos hsize]
    · simp only [if_neg hsize]
      rfl
  · simp only [if_neg hquiet]

theorem declare_verdict {op : Op} {next : Slot → FrameM Slot} (hty : op.ty? = some ty)
    (hop : op.onVariables = true) (hstep : op.step = discard (reserveVariable ty >>= next))
    (hnext : ∀ slot g, (next slot).Succeeds g) : Verdict f op (op.step.run f) := by
  have hunsized : op.Unsized ↔ ty.size = 0 := Op.unsized_iff hty
  have hbreaches : op.Breaches f ↔ f.temporaries ≠ [] := by simp [Op.breaches_iff hty, hop]
  rw [hstep, StepM.run_discard, StepM.run_bind, reserveVariable_run]
  by_cases hquiet : f.temporaries = []
  · have hdisciplined : ¬op.Breaches f := by simpa [hbreaches] using hquiet
    by_cases hsize : ty.size = 0
    · simp only [if_pos hquiet, if_pos hsize]
      exact .unsized _ (hunsized.mpr hsize) hdisciplined rfl
    · obtain ⟨slot, g, hrun⟩ := hnext ⟨f.position + f.slotSize ty, ty⟩
        { f.withSlot ty with locals := ⟨f.position + f.slotSize ty, ty⟩ :: f.locals }
      simp only [if_pos hquiet, if_neg hsize, hrun]
      exact .done g (hunsized.not.mpr hsize) hdisciplined
  · simp only [if_neg hquiet]
    exact .breach _ (hbreaches.mpr hquiet) rfl

theorem reserveTemp_verdict (ty : Ty) (f : Frame) :
    Verdict f (.reserveTemp ty) ((Op.reserveTemp ty).step.run f) := by
  have hty : (Op.reserveTemp ty).ty? = some ty := rfl
  have hunsized : (Op.reserveTemp ty).Unsized ↔ ty.size = 0 := Op.unsized_iff hty
  have hdisciplined : ¬(Op.reserveTemp ty).Breaches f := by simp [Op.breaches_iff hty, Op.onVariables]
  rcases hrun : (Op.reserveTemp ty).step.run f with ⟨e | ⟨⟩, g⟩
  · have herror := StepM.error_of_discard hrun
    obtain rfl := reserveTemp_error herror
    obtain rfl := reserveTemp_fault herror
    refine .unsized _ (hunsized.mpr (Nat.eq_zero_of_not_pos fun hsize => ?_)) hdisciplined rfl
    obtain ⟨_, _, hok⟩ := reserveTemp_succeeds (f := g).mpr hsize
    cases herror.symm.trans hok
  · obtain ⟨res, hok⟩ := StepM.ok_of_discard hrun
    exact .done g (hunsized.not.mpr (Nat.ne_of_gt (reserveTemp_ok hok).1)) hdisciplined

theorem Valid.releaseVariable_verdict (hf : f.Valid) :
    Verdict f .releaseVariable (Op.releaseVariable.step.run f) := by
  rcases hrun : Op.releaseVariable.step.run f with ⟨e | ⟨⟩, g⟩
  · obtain ⟨⟨rfl, hlive⟩ | ⟨rfl, hnone⟩, rfl⟩ := hf.releaseVariable_fault hrun
    · exact .breach _ (.belowTemporaries rfl hlive) rfl
    · exact .breach _ (.noVariable hnone) rfl
  · obtain ⟨hquiet, slot, _, locals, _, hlocals, -⟩ := releaseVariable_ok hrun
    exact .done g (Op.not_unsized rfl) (by simp [Op.breaches_releaseVariable, hquiet, hlocals])

theorem Valid.releaseTemp_verdict (hf : f.Valid) :
    Verdict f .releaseTemp (Op.releaseTemp.step.run f) := by
  rcases hrun : Op.releaseTemp.step.run f with ⟨e | ⟨⟩, g⟩
  · obtain ⟨rfl, hnone, rfl⟩ := hf.releaseTemp_fault hrun
    exact .breach _ (.noTemporary hnone) rfl
  · obtain ⟨res, temporaries, htemps, -⟩ := releaseTemp_ok hrun
    exact .done g (Op.not_unsized rfl) (by simp [Op.breaches_releaseTemp, htemps])

theorem Valid.verdict (hf : f.Valid) (op : Op) : Verdict f op (op.step.run f) := by
  cases op with
  | addVariable ty name => exact declare_verdict rfl rfl rfl fun _ _ => ⟨_, _, rfl⟩
  | reserveVariable ty =>
    have hstep : (Op.reserveVariable ty).step = discard (Frame.reserveVariable ty >>= pure) := by
      rw [bind_pure, Op.step]
    exact declare_verdict rfl rfl hstep StepM.succeeds_pure
  | releaseVariable => exact hf.releaseVariable_verdict
  | reserveTemp ty => exact reserveTemp_verdict ty f
  | releaseTemp => exact hf.releaseTemp_verdict
  | pushLoop id => exact .done _ (Op.not_unsized rfl) (by rintro ⟨⟨⟩⟩)
  | popLoop => exact .done _ (Op.not_unsized rfl) (by rintro ⟨⟨⟩⟩)

/-- After any operations on a new frame, the next one fails exactly if its type has no size or it breaks
the discipline, and then the frame is what it was. The error is internal exactly if the discipline is
broken, and the user's otherwise. -/
theorem refused_step_unchanged (ops : List Op) (op : Op) :
    ((∃ e, (op.step.run (after ops)).1 = .error e) ↔ op.Unsized ∨ op.Breaches (after ops)) ∧
      ∀ e, (op.step.run (after ops)).1 = .error e →
        (op.step.run (after ops)).2 = after ops ∧
          (op.Breaches (after ops) ∧ e.kind = .internal ∨
            ¬op.Breaches (after ops) ∧ e.kind = .user) := by
  have hverdict := (orderly_after ops).toValid.verdict op
  exact ⟨hverdict.fails_iff, fun e he => hverdict.of_error he⟩

end ArmBackend.Frame
