import ArmBackend.Proofs.Machine.Labels
import ArmBackend.Proofs.Stmt.Straight

/-!
# Labels of statements

The ids of branches and loops are used up in the order of the text, so no two labels of a body are the
same.
-/

namespace ArmBackend

open Session (Counts Advances onFrame_ok)
open ArmBackend.Frame (Peaks)

def Label.Between (σ τ : Session) : Label → Prop
  | .ifTrue id | .ifFalse id | .ifExit id => σ.nextIf ≤ id ∧ id < τ.nextIf
  | .loopCond id | .loopBody id | .loopExit id => σ.nextLoop ≤ id ∧ id < τ.nextLoop
  | .named _ | .returnOf _ | .datum .. => False

namespace Label.Between

variable {σ τ υ ψ : Session} {label : Label}

theorem mono (h : label.Between σ τ) (hσ : Counts υ σ) (hτ : Counts τ ψ) :
    label.Between υ ψ := by
  have hif := hσ.nextIf
  have hif' := hτ.nextIf
  have hloop := hσ.nextLoop
  have hloop' := hτ.nextLoop
  cases label with
  | named name => exact h
  | returnOf function => exact h
  | datum kind id => exact h
  | _ =>
    simp only [Between] at h ⊢
    omega

theorem apart (h : label.Between σ τ) (h' : label.Between υ ψ) (hτ : Counts τ υ) : False := by
  have hif := hτ.nextIf
  have hloop := hτ.nextLoop
  cases label with
  | named name => exact h
  | returnOf function => exact h
  | datum kind id => exact h
  | _ =>
    simp only [Between] at h h'
    omega

theorem placed (h : label.Between σ τ) : label.Placed := by
  cases label with
  | named name => exact h.elim
  | datum kind id => exact h.elim
  | _ => trivial

end Label.Between

/-- Code between two sessions defines labels whose ids are taken between them, each once. -/
structure Code.Labelled (σ τ : Session) (code : Code) : Prop where
  between : ∀ label ∈ code.labels, label.Between σ τ
  nodup : code.labels.Nodup

namespace Code.Labelled

variable {σ τ υ : Session} {a b code : Code}

theorem of_nil (h : code.labels = []) : Labelled σ τ code :=
  ⟨fun _ hmem => absurd (h ▸ hmem) List.not_mem_nil, h ▸ List.nodup_nil⟩

theorem of_straight {calls : Prop} {writes : Int → Ty → Prop} (h : Straight calls writes code) :
    Labelled σ τ code :=
  of_nil h.labels

theorem append (ha : Labelled σ τ a) (hb : Labelled τ υ b) (hστ : Counts σ τ)
    (hτυ : Counts τ υ) : Labelled σ υ (a ++ b) where
  between label hmem := by
    rw [labels_append] at hmem
    rcases List.mem_append.mp hmem with hmem | hmem
    · exact (ha.between label hmem).mono (.refl σ) hτυ
    · exact (hb.between label hmem).mono hστ (.refl υ)
  nodup := by
    rw [labels_append]
    refine List.nodup_append'.mpr ⟨ha.nodup, hb.nodup, fun label hmem hmem' => ?_⟩
    exact (ha.between label hmem).apart (hb.between label hmem') (.refl τ)

theorem surround {inner : Code} (h : Labelled τ υ inner) (own : List Label)
    (hown : ∀ label ∈ own, label.Between σ τ) (hnodup : own.Nodup)
    (hcode : code.labels.Perm (own ++ inner.labels)) (hστ : Counts σ τ) (hτυ : Counts τ υ) :
    Labelled σ υ code where
  between label hmem := by
    rcases List.mem_append.mp (hcode.mem_iff.mp hmem) with hmem | hmem
    · exact (hown label hmem).mono (.refl σ) hτυ
    · exact (h.between label hmem).mono hστ (.refl υ)
  nodup := by
    refine hcode.nodup_iff.mpr (List.nodup_append'.mpr ⟨hnodup, h.nodup, fun label hmem hmem' => ?_⟩)
    exact (hown label hmem).apart (h.between label hmem') (.refl τ)

end Code.Labelled

open Code (Labelled)

variable {σ τ : Session} {f : Frame} {fs : List Frame} {code : Code}

namespace Lower

theorem leave_labelled {exit : LoopExit} {label : Nat → Label}
    (h : (leave exit label).run σ = (.ok code, τ)) : Labelled σ τ code := by
  obtain ⟨_, _, _, -, -, -, rfl⟩ := leave_ok h
  exact .of_nil rfl

theorem store_labelled {pointer expr : Expr} (hf : σ.frames = f :: fs)
    (h : (store pointer expr).run σ = (.ok code, τ)) : Labelled σ τ code := by
  obtain ⟨g, hg, -⟩ := (store_peaks h).frames hf
  obtain ⟨setup, pointee, rfl, hstraight⟩ :=
    store_straight hf h hg (fun _ => trivial) (fun _ => trivial)
  refine .of_nil ?_
  rw [Code.labels_append, hstraight.labels]
  rfl

theorem ret_labelled {signature : Signature} {expr : Expr} (hf : σ.frames = f :: fs)
    (h : (ret signature expr).run σ = (.ok code, τ)) : Labelled σ τ code := by
  obtain ⟨valueCode, rfl, ⟨-, rfl, rfl⟩ | ⟨-, hreturned⟩⟩ := ret_ok h
  · exact .of_nil rfl
  · obtain ⟨g, hg, -⟩ := (ret_advances Frame.passage_peaks.toGrowth (operand_peaks expr) h).frames hf
    refine .of_nil ?_
    rw [Code.labels_append, (returned_straight hf hreturned hg fun _ => trivial).labels]
    rfl

end Lower

namespace Stmt

variable {signature : Signature}

theorem lowerBlock_labelled_of {stmts : List Stmt}
    (hstmts : ∀ stmt ∈ stmts, ∀ {σ code τ f}, (stmt.lower signature).run σ = (.ok code, τ) →
      σ.frames = f :: fs → Labelled σ τ code)
    (h : (lowerBlock signature stmts).run σ = (.ok code, τ)) (hf : σ.frames = f :: fs) :
    Labelled σ τ code := by
  induction stmts generalizing σ code f with
  | nil =>
    cases h
    exact .of_nil rfl
  | cons stmt stmts ih =>
    obtain ⟨stmtCode, restCode, σ₁, hstmt, hrest, rfl⟩ := block_cons_ok h
    obtain ⟨f₁, hf₁, -⟩ := (lower_peaks hstmt).frames hf
    exact (hstmts stmt List.mem_cons_self hstmt hf).append
      (ih (fun other hother => hstmts other (List.mem_cons_of_mem _ hother)) hrest hf₁)
      (lower_peaks hstmt).toCounts (lowerBlock_peaks hrest).toCounts

theorem lower_labelled (stmt : Stmt) (h : (stmt.lower signature).run σ = (.ok code, τ))
    (hf : σ.frames = f :: fs) : Labelled σ τ code := by
  obtain ⟨g, hg, -⟩ := (lower_peaks h).frames hf
  induction stmt using Stmt.induct generalizing σ code τ f g with
  | declare ty name =>
    obtain ⟨rfl, -⟩ := declare_ok h
    exact .of_nil rfl
  | init ty name value => exact .of_straight (Lower.init_straight hf h hg fun _ => trivial)
  | assign name value =>
    obtain ⟨slot, -, hstraight⟩ := Lower.assign_straight hf h hg fun _ => trivial
    exact .of_straight hstraight
  | store pointer value => exact Lower.store_labelled hf h
  | ret value => exact Lower.ret_labelled hf h
  | call callee args => exact .of_straight (Lower.discarded_straight hf h hg trivial)
  | ifElse cond thenBlock elseBlock ihthen ihelse =>
    obtain ⟨id, condCode, thenCode, elseCode, σ₁, σ₂, σ₃, hid, hcond, hthen, helse, rfl⟩ := ifElse_ok h
    obtain ⟨f₁, hf₁, -⟩ := (Session.freshIf_advances hid).frames hf
    have hcond₁ : Advances Peaks σ₁ σ₂ := Lower.condition_advances (Lower.operand_peaks cond) hcond
    obtain ⟨f₂, hf₂, -⟩ := hcond₁.frames hf₁
    obtain ⟨f₃, hf₃, -⟩ := (lowerBlock_peaks hthen).frames hf₂
    have hcondCode := (Lower.condition_straight hf₁ hcond hf₂ fun _ => trivial).labels
    have hthenCode : Labelled σ₂ σ₃ thenCode := lowerBlock_labelled_of (fun stmt hmem _ _ _ _ hrun hf =>
      have ⟨_, hg, _⟩ := (lower_peaks hrun).frames hf
      ihthen stmt hmem hrun hf _ hg) hthen hf₂
    have helseCode : Labelled σ₃ τ elseCode := lowerBlock_labelled_of (fun stmt hmem _ _ _ _ hrun hf =>
      have ⟨_, hg, _⟩ := (lower_peaks hrun).frames hf
      ihelse stmt hmem hrun hf _ hg) helse hf₃
    have hthen₁ := (lowerBlock_peaks hthen).toCounts
    have helse₁ := (lowerBlock_peaks helse).toCounts
    have hblocks := hthenCode.append helseCode hthen₁ helse₁
    have hblocks₁ := hthen₁.trans helse₁
    refine ((Labelled.of_nil hcondCode).append hblocks hcond₁.toCounts hblocks₁).surround
      [.ifTrue id, .ifFalse id, .ifExit id] ?_ ?_ ?_ (Session.freshIf_advances hid).toCounts
      (hcond₁.toCounts.trans hblocks₁)
    · obtain ⟨rfl, labels, rfl⟩ := Session.freshIf_ok hid
      simp [Label.Between]
    · simp
    · refine List.perm_iff_count.mpr fun label => ?_
      simp [List.count_cons, hcondCode]
      omega
  | loop cond body ih =>
    obtain ⟨id, condCode, bodyCode, σ₁, σ₂, hid, hcond, hinLoop, rfl⟩ := loop_ok h
    obtain ⟨σ₃, σ₄, hpush, hbody, hpop⟩ := Session.inLoop_ok hinLoop
    obtain ⟨f₁, hf₁, -⟩ := (Session.freshLoop_advances hid).frames hf
    have hcond₁ : Advances Peaks σ₁ σ₂ := Lower.condition_advances (Lower.operand_peaks cond) hcond
    obtain ⟨f₂, hf₂, -⟩ := hcond₁.frames hf₁
    obtain ⟨f₃, hf₃, -⟩ := (onFrame_ok hpush).1.frames hf₂
    have hcondCode := (Lower.condition_straight hf₁ hcond hf₂ fun _ => trivial).labels
    have hbodyCode : Labelled σ₃ σ₄ bodyCode := lowerBlock_labelled_of (fun stmt hmem _ _ _ _ hrun hf =>
      have ⟨_, hg, _⟩ := (lower_peaks hrun).frames hf
      ih stmt hmem hrun hf _ hg) hbody hf₃
    have hinner : Labelled σ₂ τ bodyCode :=
      ⟨fun label hmem => (hbodyCode.between label hmem).mono (onFrame_ok hpush).1.toCounts
        (onFrame_ok hpop).1.toCounts, hbodyCode.nodup⟩
    have hbody₁ : Session.Counts σ₂ τ := (Session.inLoop_advances Frame.passage_peaks
      (fun hrun => lowerBlock_peaks hrun) hinLoop).toCounts
    refine ((Labelled.of_nil hcondCode).append hinner hcond₁.toCounts hbody₁).surround
      [.loopCond id, .loopBody id, .loopExit id] ?_ ?_ ?_ (Session.freshLoop_advances hid).toCounts
      (hcond₁.toCounts.trans hbody₁)
    · obtain ⟨rfl, labels, rfl⟩ := Session.freshLoop_ok hid
      simp [Label.Between]
    · simp
    · refine List.perm_iff_count.mpr fun label => ?_
      simp [List.count_cons, hcondCode]
  | breakLoop => exact Lower.leave_labelled h
  | continueLoop => exact Lower.leave_labelled h

theorem lowerBlock_labelled {stmts : List Stmt}
    (h : (lowerBlock signature stmts).run σ = (.ok code, τ)) (hf : σ.frames = f :: fs) :
    Labelled σ τ code :=
  lowerBlock_labelled_of (fun stmt _ _ _ _ _ hrun hf => stmt.lower_labelled hrun hf) h hf

end Stmt

end ArmBackend
