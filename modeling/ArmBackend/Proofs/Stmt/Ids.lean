import ArmBackend.Proofs.Stmt.Labels
import ArmBackend.Proofs.Stmt.Outcome

/-!
# Ids of branches and loops

Every branch and every loop takes one id, and nothing else does. So the code of a statement defines all the
labels whose ids are taken while it is lowered, and the statement alone says how many there are. A step that
fails takes no more ids than the statement has branches and loops, so the statement also says when the ids
stay below a bound.
-/

namespace ArmBackend

open Session (Still onFrame_ok)

variable {σ τ υ : Session} {code : Code} {label : Label}

namespace Stmt

mutual

def branches : Stmt → Nat
  | .ifElse _ thenBlock elseBlock => 1 + blockBranches thenBlock + blockBranches elseBlock
  | .loop _ body => blockBranches body
  | _ => 0

def blockBranches : List Stmt → Nat
  | [] => 0
  | stmt :: stmts => stmt.branches + blockBranches stmts

end

mutual

def loops : Stmt → Nat
  | .ifElse _ thenBlock elseBlock => blockLoops thenBlock + blockLoops elseBlock
  | .loop _ body => 1 + blockLoops body
  | _ => 0

def blockLoops : List Stmt → Nat
  | [] => 0
  | stmt :: stmts => stmt.loops + blockLoops stmts

end

end Stmt

theorem Label.Between.split (h : label.Between σ υ) (τ : Session) : label.Between σ τ ∨ label.Between τ υ := by
  cases label with
  | named name => exact h.elim
  | returnOf function => exact h.elim
  | datum kind id => exact h.elim
  | _ =>
    simp only [Label.Between] at h ⊢
    omega

theorem Label.not_between (hif : τ.nextIf = σ.nextIf) (hloop : τ.nextLoop = σ.nextLoop) :
    ¬ label.Between σ τ := by
  cases label with
  | named name => exact id
  | returnOf function => exact id
  | datum kind id => exact fun h => h
  | _ =>
    simp only [Label.Between]
    omega

/-- From `σ` to `τ` so many branches and loops have taken ids, and the code defines all their labels. -/
structure Code.Fills (branches loops : Nat) (σ τ : Session) (code : Code) : Prop where
  nextIf : τ.nextIf = σ.nextIf + branches
  nextLoop : τ.nextLoop = σ.nextLoop + loops
  complete : ∀ label : Label, label.Between σ τ → label ∈ code.labels

namespace Code.Fills

variable {a b : Code} {branches branches' loops loops' : Nat}

theorem of_eq (hif : τ.nextIf = σ.nextIf) (hloop : τ.nextLoop = σ.nextLoop) : Fills 0 0 σ τ code where
  nextIf := hif
  nextLoop := hloop
  complete _ h := absurd h (Label.not_between hif hloop)

theorem of_still {α : Type} {step : CompileM α} {x : α} (hstill : Still step)
    (h : step.run σ = (.ok x, τ)) : Fills 0 0 σ τ code := by
  have hview := (hstill σ).view
  rw [h] at hview
  obtain ⟨-, hids⟩ := Prod.mk.inj hview
  obtain ⟨hif, hloop⟩ := Prod.mk.inj hids
  exact of_eq hif hloop

theorem append (ha : Fills branches loops σ τ a) (hb : Fills branches' loops' τ υ b) :
    Fills (branches + branches') (loops + loops') σ υ (a ++ b) where
  nextIf := by rw [hb.nextIf, ha.nextIf, Nat.add_assoc]
  nextLoop := by rw [hb.nextLoop, ha.nextLoop, Nat.add_assoc]
  complete label h := by
    rw [labels_append]
    rcases h.split τ with h | h
    · exact List.mem_append_left _ (ha.complete label h)
    · exact List.mem_append_right _ (hb.complete label h)

theorem mono (h : Fills branches loops σ τ a) (hlabels : ∀ label ∈ a.labels, label ∈ b.labels) :
    Fills branches loops σ τ b :=
  { h with complete := fun label hlabel => hlabels label (h.complete label hlabel) }

theorem freshIf {id : Nat} (h : Session.freshIf.run σ = (.ok id, τ)) :
    Fills 1 0 σ τ [.label (.ifTrue id), .label (.ifFalse id), .label (.ifExit id)] := by
  obtain ⟨rfl, labels, rfl⟩ := Session.freshIf_ok h
  refine ⟨rfl, rfl, fun label hlabel => ?_⟩
  cases label <;> simp only [Label.Between] at hlabel <;> simp <;> omega

theorem freshLoop {id : Nat} (h : Session.freshLoop.run σ = (.ok id, τ)) :
    Fills 0 1 σ τ [.label (.loopCond id), .label (.loopBody id), .label (.loopExit id)] := by
  obtain ⟨rfl, labels, rfl⟩ := Session.freshLoop_ok h
  refine ⟨rfl, rfl, fun label hlabel => ?_⟩
  cases label <;> simp only [Label.Between] at hlabel <;> simp <;> omega

theorem inLoop {id : Nat} {step : CompileM Code} (h : (Session.inLoop id step).run σ = (.ok code, τ))
    (hstep : ∀ {σ τ}, step.run σ = (.ok code, τ) → Fills branches loops σ τ code) :
    Fills branches loops σ τ code := by
  obtain ⟨σ₁, σ₂, hpush, hrun, hpop⟩ := Session.inLoop_ok h
  obtain ⟨-, _, _, _, -, -, rfl⟩ := onFrame_ok hpush
  obtain ⟨-, _, _, _, -, -, rfl⟩ := onFrame_ok hpop
  exact { hstep hrun with }

end Code.Fills

open Code (Fills)

namespace Stmt

variable {signature : Signature} {stmts : List Stmt}

theorem lowerBlock_fills_of
    (hstmts : ∀ stmt ∈ stmts, ∀ {σ τ code}, (stmt.lower signature).run σ = (.ok code, τ) →
      Fills stmt.branches stmt.loops σ τ code)
    (h : (lowerBlock signature stmts).run σ = (.ok code, τ)) :
    Fills (blockBranches stmts) (blockLoops stmts) σ τ code := by
  induction stmts generalizing σ code with
  | nil =>
    cases h
    exact .of_eq rfl rfl
  | cons stmt stmts ih =>
    obtain ⟨stmtCode, restCode, σ₁, hstmt, hrest, rfl⟩ := block_cons_ok h
    obtain ⟨hfirst, hothers⟩ := List.forall_mem_cons.mp hstmts
    exact (hfirst hstmt).append (ih hothers hrest)

/-- Lowering a statement takes an id for each of its branches and loops, in whose labels the code has no
gap. -/
theorem lower_fills (stmt : Stmt) (h : (stmt.lower signature).run σ = (.ok code, τ)) :
    Fills stmt.branches stmt.loops σ τ code := by
  induction stmt using Stmt.induct generalizing σ code τ with
  | declare ty name =>
    obtain ⟨-, slot, hslot⟩ := declare_ok h
    exact .of_still (Session.addVariable_still ty name) hslot
  | init ty name value => exact .of_still Lower.init_still h
  | assign name value => exact .of_still Lower.assign_still h
  | store pointer value => exact .of_still Lower.store_still h
  | ret value => exact .of_still Lower.ret_still h
  | call callee args =>
    exact .of_still (Lower.call_still (Expr.forall_operands.mpr fun arg _ => arg.operand_still)) h
  | ifElse cond thenBlock elseBlock ihthen ihelse =>
    obtain ⟨id, condCode, thenCode, elseCode, σ₁, σ₂, σ₃, hid, hcond, hthen, helse, rfl⟩ := ifElse_ok h
    have hcondCode : Fills 0 0 σ₁ σ₂ condCode := .of_still Lower.condition_still hcond
    have hall := (((Fills.freshIf hid).append hcondCode).append (lowerBlock_fills_of ihthen hthen)).append
      (lowerBlock_fills_of ihelse helse)
    simp only [Nat.zero_add, Nat.add_zero] at hall
    refine hall.mono fun label hlabel => ?_
    simp only [Code.labels_append, Code.labels_label, Code.labels_instr, Code.labels_nil, List.mem_append,
      List.mem_cons, List.not_mem_nil, or_false] at hlabel ⊢
    tauto
  | loop cond body ih =>
    obtain ⟨id, condCode, bodyCode, σ₁, σ₂, hid, hcond, hinLoop, rfl⟩ := loop_ok h
    have hcondCode : Fills 0 0 σ₁ σ₂ condCode := .of_still Lower.condition_still hcond
    have hall := ((Fills.freshLoop hid).append hcondCode).append (.inLoop hinLoop (lowerBlock_fills_of ih))
    simp only [Nat.zero_add, Nat.add_zero] at hall
    refine hall.mono fun label hlabel => ?_
    simp only [Code.labels_append, Code.labels_label, Code.labels_instr, Code.labels_nil, List.mem_append,
      List.mem_cons, List.not_mem_nil, or_false] at hlabel ⊢
    tauto
  | breakLoop => exact .of_still Lower.leave_still h
  | continueLoop => exact .of_still Lower.leave_still h

theorem lowerBlock_fills (h : (lowerBlock signature stmts).run σ = (.ok code, τ)) :
    Fills (blockBranches stmts) (blockLoops stmts) σ τ code :=
  lowerBlock_fills_of (fun stmt _ _ _ _ => stmt.lower_fills) h

end Stmt

/-! ## Whatever the outcome -/

/-- Whatever the outcome, the step takes at most so many ids of branches and of loops. -/
structure Session.Draws {α : Type} (branches loops : Nat) (step : CompileM α) : Prop where
  nextIf : ∀ σ : Session, (step.run σ).2.nextIf ≤ σ.nextIf + branches
  nextLoop : ∀ σ : Session, (step.run σ).2.nextLoop ≤ σ.nextLoop + loops

namespace Session.Draws

variable {α β : Type} {step : CompileM α} {next : α → CompileM β} {branches branches' loops loops' : Nat}

theorem of_eq (hif : ∀ σ : Session, (step.run σ).2.nextIf = σ.nextIf)
    (hloop : ∀ σ : Session, (step.run σ).2.nextLoop = σ.nextLoop) : Draws 0 0 step :=
  ⟨fun σ => Nat.le_of_eq (hif σ), fun σ => Nat.le_of_eq (hloop σ)⟩

theorem of_still (h : Still step) : Draws 0 0 step := by
  have hids := fun σ => Prod.mk.inj (Prod.mk.inj (h σ).view).2
  exact of_eq (fun σ => (hids σ).1) fun σ => (hids σ).2

theorem pure (a : α) : Draws 0 0 (pure a : CompileM α) := of_eq (fun _ => rfl) fun _ => rfl

theorem lift (outcome : Except CompileError α) : Draws 0 0 (monadLift outcome : CompileM α) :=
  of_eq (fun _ => rfl) fun _ => rfl

theorem mono (h : Draws branches loops step) (hif : branches ≤ branches') (hloop : loops ≤ loops') :
    Draws branches' loops' step :=
  ⟨fun σ => Nat.le_trans (h.nextIf σ) (Nat.add_le_add_left hif _),
    fun σ => Nat.le_trans (h.nextLoop σ) (Nat.add_le_add_left hloop _)⟩

theorem attempt (h : Draws branches loops step) : Draws branches loops (StepM.attempt step) :=
  ⟨h.nextIf, h.nextLoop⟩

theorem bind (h : Draws branches loops step) (hnext : ∀ a, Draws branches' loops' (next a)) :
    Draws (branches + branches') (loops + loops') (step >>= next) where
  nextIf σ := by
    have hfirst := h.nextIf σ
    rw [StepM.run_bind]
    rcases hrun : step.run σ with ⟨e | a, τ⟩ <;> rw [hrun] at hfirst
    · exact Nat.le_trans hfirst (by omega)
    · have hrest := (hnext a).nextIf τ
      exact Nat.le_trans hrest (by simp only at hfirst; omega)
  nextLoop σ := by
    have hfirst := h.nextLoop σ
    rw [StepM.run_bind]
    rcases hrun : step.run σ with ⟨e | a, τ⟩ <;> rw [hrun] at hfirst
    · exact Nat.le_trans hfirst (by omega)
    · have hrest := (hnext a).nextLoop τ
      exact Nat.le_trans hrest (by simp only at hfirst; omega)

theorem skip (h : Draws 0 0 step) (hnext : ∀ a, Draws branches loops (next a)) :
    Draws branches loops (step >>= next) :=
  (h.bind hnext).mono (by omega) (by omega)

theorem onFrame (operation : FrameM α) : Draws 0 0 (onFrame operation) := by
  refine of_eq (fun σ => ?_) fun σ => ?_ <;>
    · rw [onFrame_run]
      split <;> rfl

theorem check {error : List Reservation → CompileError} (code : Code) :
    Draws 0 0 (do
      let live ← Session.onFrame (Frame.temporaries <$> get)
      unless live.isEmpty do throw (error live)
      return code) := by
  refine skip (.onFrame _) fun live => ?_
  split
  · exact pure code
  · exact of_eq (fun _ => rfl) fun _ => rfl

theorem popFrame : Draws 0 0 popFrame := by
  refine of_eq (fun σ => ?_) fun σ => ?_ <;> cases hframes : σ.frames <;> simp [Session.popFrame, hframes]

theorem inLoop {id : Nat} (h : Draws branches loops step) : Draws branches loops (inLoop id step) := by
  exact skip (onFrame _) fun _ => h.attempt.bind fun outcome => skip (onFrame _) fun _ => lift outcome

theorem inFrame (h : Draws branches loops step) : Draws branches loops (inFrame step) := by
  have hpush : Draws 0 0 pushFrame := of_eq (fun _ => rfl) fun _ => rfl
  exact skip hpush fun _ => h.attempt.bind fun outcome => skip popFrame fun frame =>
    skip (lift outcome) fun value => pure (value, frame)

theorem forM {items : List β} {step : β → CompileM Unit} (h : ∀ item, Draws 0 0 (step item)) :
    Draws 0 0 (items.forM step) := by
  induction items with
  | nil => exact pure ()
  | cons item items ih => exact (h item).bind fun _ => ih

end Session.Draws

theorem Session.freshIf_draws : Draws 1 0 freshIf := ⟨fun _ => Nat.le_refl _, fun _ => Nat.le_refl _⟩

theorem Session.freshLoop_draws : Draws 0 1 freshLoop := ⟨fun _ => Nat.le_refl _, fun _ => Nat.le_refl _⟩

namespace Stmt

open Session (Draws)

variable {signature : Signature} {stmts : List Stmt}

theorem lowerBlock_draws_of
    (h : ∀ stmt ∈ stmts, Draws stmt.branches stmt.loops (stmt.lower signature)) :
    Draws (blockBranches stmts) (blockLoops stmts) (lowerBlock signature stmts) := by
  induction stmts with
  | nil => exact .pure _
  | cons stmt stmts ih =>
    obtain ⟨hfirst, hothers⟩ := List.forall_mem_cons.mp h
    exact hfirst.bind fun _ => (ih hothers).bind fun _ => .pure _

/-- Lowering a statement takes an id for each of its branches and loops at most. -/
theorem lower_draws (stmt : Stmt) : Draws stmt.branches stmt.loops (stmt.lower signature) := by
  induction stmt using Stmt.induct with
  | declare ty name => exact (Draws.of_still (Session.addVariable_still ty name)).bind fun _ => .pure _
  | init ty name value => exact .of_still Lower.init_still
  | assign name value => exact .of_still Lower.assign_still
  | store pointer value => exact .of_still Lower.store_still
  | ret value => exact .of_still Lower.ret_still
  | call callee args =>
    exact .of_still (Lower.call_still (Expr.forall_operands.mpr fun arg _ => arg.operand_still))
  | ifElse cond thenBlock elseBlock ihThen ihElse =>
    refine Draws.mono (.bind Session.freshIf_draws fun _ => .skip (.of_still Lower.condition_still) fun _ =>
      .bind (lowerBlock_draws_of ihThen) fun _ => .bind (lowerBlock_draws_of ihElse) fun _ => .pure _) ?_ ?_ <;>
    · simp only [branches, loops]
      omega
  | loop cond body ih =>
    refine Draws.mono (.bind Session.freshLoop_draws fun _ => .skip (.of_still Lower.condition_still) fun _ =>
      .bind (.inLoop (lowerBlock_draws_of ih)) fun _ => .pure _) ?_ ?_ <;>
    · simp only [branches, loops]
      omega
  | breakLoop => exact .of_still Lower.leave_still
  | continueLoop => exact .of_still Lower.leave_still

theorem lowerBlock_draws (stmts : List Stmt) :
    Draws (blockBranches stmts) (blockLoops stmts) (lowerBlock signature stmts) :=
  lowerBlock_draws_of fun stmt _ => stmt.lower_draws

end Stmt

end ArmBackend
