import ArmBackend.Proofs.Frame.Success
import ArmBackend.Proofs.Outcome

/-!
# How operations on a frame fail

Every operation that fails leaves the frame as it was. The only internal errors are releases without
anything to release and variables that come or go below a temporary. No operation changes the loops.
-/

namespace ArmBackend.Frame

variable {e : CompileError} {f g : Frame} {ty : Ty} {name : String}

theorem takeSlot_fault (h : (takeSlot ty).run f = (.error e, g)) :
    e = .typeViolation (.unsizedSlot ty) := by
  rw [takeSlot_run] at h
  split at h <;> cases h
  rfl

theorem requireNoTemporaries_fault {action : VariableAction}
    (h : (requireNoTemporaries action).run f = (.error e, g)) :
    e = .internal (.variableBelowTemporaries action f.temporaries.length) ∧ f.temporaries ≠ [] ∧
      g = f := by
  simp only [requireNoTemporaries, StepM.run_bind, StepM.run_get, StepM.run_ite, StepM.run_pure,
    StepM.run_throw, List.isEmpty_iff] at h
  split at h <;> cases h
  exact ⟨rfl, ‹_›, rfl⟩

theorem reserveVariable_fault (h : (reserveVariable ty).run f = (.error e, g)) :
    e = .typeViolation (.unsizedSlot ty) ∨
      (e = .internal (.variableBelowTemporaries .reserve f.temporaries.length) ∧
        f.temporaries ≠ []) := by
  rw [reserveVariable, StepM.run_bind] at h
  rcases hrequire : (requireNoTemporaries .reserve).run f with ⟨e' | _, f'⟩ <;> rw [hrequire] at h
  · cases h
    obtain ⟨he, hne, -⟩ := requireNoTemporaries_fault hrequire
    exact Or.inr ⟨he, hne⟩
  · obtain ⟨-, rfl⟩ := requireNoTemporaries_ok hrequire
    simp only [StepM.run_bind, StepM.run_modify, StepM.run_pure] at h
    rcases htake : (takeSlot ty).run f' with ⟨e' | offset, f''⟩ <;> rw [htake] at h <;> cases h
    exact Or.inl (takeSlot_fault htake)

theorem addVariable_fault (h : (addVariable ty name).run f = (.error e, g)) :
    e = .typeViolation (.unsizedSlot ty) ∨
      (e = .internal (.variableBelowTemporaries .reserve f.temporaries.length) ∧
        f.temporaries ≠ []) := by
  simp only [addVariable, StepM.run_bind, StepM.run_modify, StepM.run_pure] at h
  rcases hreserve : (reserveVariable ty).run f with ⟨e' | slot, f'⟩ <;> rw [hreserve] at h <;> cases h
  exact reserveVariable_fault hreserve

theorem resolve_fault (h : (resolve name).run f = (.error e, g)) :
    e = .undefinedVariable name ∧ g = f := by
  simp only [resolve, StepM.run_bind, StepM.run_get] at h
  split at h <;> cases h
  exact ⟨rfl, rfl⟩

theorem reserveTemp_fault (h : (reserveTemp ty).run f = (.error e, g)) :
    e = .typeViolation (.unsizedTemporary ty) := by
  cases hstorable : ty.storable with
  | false =>
    simp only [reserveTemp, hstorable] at h
    cases h
    rfl
  | true =>
    have hsucceeds : (reserveTemp ty).Succeeds f :=
      reserveTemp_succeeds.mpr (Ty.storable_iff.mp hstorable)
    obtain ⟨_, _, hrun⟩ := hsucceeds
    cases h.symm.trans hrun

theorem Valid.releaseTemp_fault (hf : f.Valid) (h : Frame.releaseTemp.run f = (.error e, g)) :
    e = .internal .noTemporary ∧ f.temporaries = [] ∧ g = f := by
  by_cases hempty : f.temporaries = []
  · simp only [Frame.releaseTemp, StepM.run_bind, StepM.run_get, hempty] at h
    cases h
    exact ⟨rfl, hempty, rfl⟩
  · obtain ⟨_, _, hrun⟩ := hf.releaseTemp_succeeds hempty
    cases h.symm.trans hrun

theorem Valid.releaseVariable_fault (hf : f.Valid)
    (h : Frame.releaseVariable.run f = (.error e, g)) :
    ((e = .internal (.variableBelowTemporaries .release f.temporaries.length) ∧
        f.temporaries ≠ []) ∨
      (e = .internal .noVariable ∧ f.locals = [])) ∧ g = f := by
  by_cases hempty : f.temporaries = []
  · by_cases hlocals : f.locals = []
    · simp only [Frame.releaseVariable, requireNoTemporaries, hempty, hlocals, List.isEmpty_nil,
        StepM.run_bind, StepM.run_get, if_true, StepM.run_pure] at h
      cases h
      exact ⟨Or.inr ⟨rfl, hlocals⟩, rfl⟩
    · obtain ⟨_, _, hrun⟩ := hf.releaseVariable_succeeds hempty hlocals
      cases h.symm.trans hrun
  · rw [Frame.releaseVariable, StepM.run_bind] at h
    rcases hrequire : (requireNoTemporaries .release).run f with ⟨e' | _, f'⟩ <;> rw [hrequire] at h
    · cases h
      obtain ⟨he, hne, hg⟩ := requireNoTemporaries_fault hrequire
      exact ⟨Or.inl ⟨he, hne⟩, hg⟩
    · exact absurd (requireNoTemporaries_ok hrequire).1 hempty

/-! ## Loops -/

open StepM (Upholds)

open CompileError (Sealed)

theorem takeSlot_upholds : (takeSlot ty).Upholds loops Sealed f := by
  rw [takeSlot]
  split
  · exact .throw rfl
  · exact .get_bind (.bind (.set rfl) fun _ _ _ => .pure _)

theorem dropSlot_upholds : (dropSlot ty).Upholds loops Sealed f := by
  refine .get_bind ?_
  split
  · exact .throw rfl
  · refine .bind (.set rfl) fun _ _ hset => ?_
    cases hset
    split
    · exact .throw rfl
    · exact .set rfl

theorem requireNoTemporaries_upholds {action : VariableAction} :
    (requireNoTemporaries action).Upholds loops Sealed f := by
  refine .get_bind ?_
  split
  · exact .pure _
  · exact .throw rfl

theorem reserveVariable_upholds : (reserveVariable ty).Upholds loops Sealed f :=
  .bind requireNoTemporaries_upholds fun _ _ _ => .bind takeSlot_upholds fun _ _ _ =>
    .bind (.modify rfl) fun _ _ _ => .pure _

theorem addVariable_upholds : (addVariable ty name).Upholds loops Sealed f :=
  .bind reserveVariable_upholds fun _ _ _ => .bind (.modify rfl) fun _ _ _ => .pure _

theorem releaseVariable_upholds : releaseVariable.Upholds loops Sealed f := by
  refine .bind requireNoTemporaries_upholds fun _ _ _ => .get_bind ?_
  split
  · exact .throw rfl
  · exact .bind (.set rfl) fun _ _ _ => dropSlot_upholds

theorem resolve_upholds : (resolve name).Upholds loops Sealed f := by
  refine .get_bind ?_
  split
  · exact .pure _
  · exact .throw rfl

theorem reserveTemp_upholds : (reserveTemp ty).Upholds loops Sealed f := by
  rw [reserveTemp]
  split
  · refine .get_bind ?_
    split
    · exact .bind (.modify rfl) fun _ _ _ => .pure _
    · exact .bind takeSlot_upholds fun _ _ _ => .bind (.modify rfl) fun _ _ _ => .pure _
  · exact .throw rfl

theorem releaseTemp_upholds : releaseTemp.Upholds loops Sealed f := by
  refine .get_bind ?_
  split
  · exact .throw rfl
  · refine .bind (.set rfl) fun _ _ _ => ?_
    split
    · exact .modify rfl
    · exact dropSlot_upholds

end ArmBackend.Frame
