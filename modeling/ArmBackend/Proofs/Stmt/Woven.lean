import ArmBackend.Proofs.Machine.Stride
import ArmBackend.Proofs.Stmt.Accepted
import ArmBackend.Proofs.Stmt.Scope

/-!
# What the code of a statement writes

The code of a statement is woven of straight-line code and branches. Apart from stores through pointers it
writes the slots of variables that the statement assigns to, and slots that were free before it.
-/

namespace ArmBackend

open Session (Advances onFrame_ok)
open Code (Woven)
open ArmBackend.Frame (Deepens Grows Named Rests Spills)

namespace Stmt

mutual

/-- The variables from before the statement that it assigns to. A name that is declared again stands for
another variable from there on, behind the block of the declaration too. -/
def assigned : Stmt → List String
  | .assign name _ => [name]
  | .ifElse _ thenBlock elseBlock =>
    blockAssigned thenBlock ++ (blockAssigned elseBlock).filter (· ∉ blockBinds thenBlock)
  | .loop _ body => blockAssigned body
  | .declare .. | .init .. | .store .. | .ret _ | .call .. | .breakLoop | .continueLoop => []

def blockAssigned : List Stmt → List String
  | [] => []
  | stmt :: stmts => stmt.assigned ++ (blockAssigned stmts).filter (· ∉ stmt.binds)

end

theorem blockBinds_append (a b : List Stmt) : blockBinds (a ++ b) = blockBinds b ++ blockBinds a := by
  induction a with
  | nil => exact (List.append_nil _).symm
  | cons stmt stmts ih => rw [List.cons_append, blockBinds, ih, blockBinds, List.append_assoc]

theorem blockAssigned_append (a b : List Stmt) :
    blockAssigned (a ++ b) = blockAssigned a ++ (blockAssigned b).filter (· ∉ blockBinds a) := by
  induction a with
  | nil => simp [blockAssigned, blockBinds]
  | cons stmt stmts ih =>
    rw [List.cons_append, blockAssigned, ih, blockAssigned, blockBinds, List.filter_append, List.filter_filter,
      List.append_assoc]
    congr 2
    refine List.filter_congr fun name _ => ?_
    simp [and_comm]

end Stmt

namespace Frame

/-- Whether the place is the slot of one of the names in `f`, or a slot that can have been taken between
`f` and `g`. -/
def Writes (f g : Frame) (names : List String) (offset : Int) (ty : Ty) : Prop :=
  Spills f g offset ty ∨
    ∃ name ∈ names, ∃ slot, f.symbols.lookup name = some slot ∧ slot.reservation.Occupies offset ty

variable {f f' g g' : Frame} {names names' bound : List String} {offset : Int} {ty : Ty}

theorem Writes.widen (h : Writes f g' names offset ty) (houter : g'.highWater ≤ g.highWater)
    (hnames : ∀ name ∈ names, name ∈ names') : Writes f g names' offset ty :=
  h.imp (·.mono (Nat.le_refl _) houter) fun ⟨name, hname, hslot⟩ => ⟨name, hnames name hname, hslot⟩

/-- What is written later is written between the frames around. A name that has been bound in between stands
for a slot that was free. -/
theorem Writes.later (h : Writes f' g names offset ty) (hdeepens : Deepens f f')
    (hbound : f'.names = bound ++ f.names) (hnamed : f.Named) (hpeak : f'.highWater ≤ g.highWater)
    (hnames : ∀ name ∈ names, name ∉ bound → name ∈ names') : Writes f g names' offset ty := by
  rcases h with h | ⟨name, hname, slot, hlookup, hoccupies⟩
  · exact Or.inl (h.mono (hdeepens.position hnamed) (Nat.le_refl _))
  · obtain ⟨news, hnews, hspills⟩ := hdeepens.names hnamed
    obtain rfl : news.map Prod.fst = bound := by
      rw [Frame.names, hnews, List.map_append] at hbound
      exact List.append_cancel_right hbound
    rw [hnews, List.lookup_append] at hlookup
    cases hnew : news.lookup name with
    | none =>
      rw [hnew, Option.none_or] at hlookup
      have hfree : name ∉ news.map Prod.fst := fun hmem => by
        obtain ⟨entry, hentry, rfl⟩ := List.mem_map.mp hmem
        simpa using List.lookup_eq_none_iff.mp hnew entry hentry
      exact Or.inr ⟨name, hnames name hname hfree, slot, hlookup, hoccupies⟩
    | some slot' =>
      rw [hnew, Option.some_or, Option.some.injEq] at hlookup
      subst hlookup
      cases hoccupies
      obtain ⟨before, after, rfl, -⟩ := List.lookup_eq_some_iff.mp hnew
      exact Or.inl ((hspills _ (List.mem_append_right _ List.mem_cons_self)).mono (Nat.le_refl _) hpeak)

end Frame

open ArmBackend.Frame (Writes)

/-! ## Code along statements -/

/-- Code on whose way from one frame to the other the statements are lowered, one after the other: it binds
and writes what they do. Branches and labels may stand between them. -/
structure Code.Trail (calls : Prop) (f g : Frame) (stmts : List Stmt) (code : Code) : Prop where
  deepens : Deepens f g
  names : g.names = Stmt.blockBinds stmts ++ f.names
  woven : Woven calls (Writes f g (Stmt.blockAssigned stmts)) code

namespace Code.Trail

variable {calls : Prop} {f g k : Frame} {stmts later : List Stmt} {a b code : Code}

theorem of_woven (hgrows : Grows f g) (hwoven : Woven calls (Spills f g) code) : Trail calls f g [] code :=
  ⟨hgrows.deepens, hgrows.binds.names, hwoven.mono fun _ _ => Or.inl⟩

theorem nil (f : Frame) : Trail calls f f [] [] := .of_woven (Rests.refl f).grows .nil

theorem append (ha : Trail calls f g stmts a) (hb : Trail calls g k later b) (hnamed : f.Named) :
    Trail calls f k (stmts ++ later) (a ++ b) where
  deepens := ha.deepens.trans hb.deepens
  names := by rw [hb.names, ha.names, Stmt.blockBinds_append, List.append_assoc]
  woven := by
    rw [Stmt.blockAssigned_append]
    refine .append (ha.woven.mono fun _ _ hw => ?_) (hb.woven.mono fun _ _ hw => ?_)
    · exact hw.widen hb.deepens.highWater fun name => List.mem_append_left _
    · exact hw.later ha.deepens ha.names hnamed hb.deepens.highWater fun name hname hfree =>
        List.mem_append_right _ (List.mem_filter.mpr ⟨hname, decide_eq_true hfree⟩)

theorem label (label : Label) (h : Trail calls f g stmts code) : Trail calls f g stmts (.label label :: code) :=
  { h with woven := .label label h.woven }

theorem branch {label : Label} (hlabel : label.Local) (h : Trail calls f g stmts code) :
    Trail calls f g stmts (.instr (.b label) :: code) :=
  { h with woven := .branch hlabel h.woven }

theorem branchIf (cond : Cond) {label : Label} (hlabel : label.Local) (h : Trail calls f g stmts code) :
    Trail calls f g stmts (.instr (.bCond cond label) :: code) :=
  { h with woven := .branchIf cond hlabel h.woven }

theorem loop {id : Nat} (h : Trail calls (f.pushLoop id) g stmts code) : Trail calls f g.popLoop stmts code :=
  ⟨h.deepens.loop, h.names, h.woven⟩

end Code.Trail

open Code (Trail)

variable {calls : Prop} {σ τ : Session} {f g : Frame} {fs gs : List Frame} {code : Code}

namespace Lower

theorem store_woven {pointer expr : Expr} (hf : σ.frames = f :: fs)
    (h : (store pointer expr).run σ = (.ok code, τ)) (hg : τ.frames = g :: gs)
    (hpcalls : pointer.containsCalls = true → calls) (hcalls : expr.containsCalls = true → calls) :
    Woven calls (Spills f g) code := by
  obtain ⟨setup, pointee, rfl, hstraight⟩ := store_straight hf h hg hpcalls hcalls
  rw [← List.append_nil (Code.storeThrough _ _ _)]
  exact .straight hstraight (.through pointee .nil)

theorem ret_woven {signature : Signature} {expr : Expr} (hf : σ.frames = f :: fs)
    (h : (ret signature expr).run σ = (.ok code, τ)) (hg : τ.frames = g :: gs)
    (hcalls : expr.containsCalls = true → calls) : Woven calls (Spills f g) code := by
  obtain ⟨valueCode, rfl, hvalue⟩ := ret_ok h
  have hlabel : (Label.returnOf signature.name).Local := trivial
  have hbranch : Woven calls (Spills f g) (Code.ofInstrs [.b (.returnOf signature.name)]) :=
    .branch hlabel .nil
  rcases hvalue with ⟨-, rfl, -⟩ | ⟨-, hreturned⟩
  · exact hbranch
  · exact .straight (returned_straight hf hreturned hg hcalls) hbranch

theorem leave_woven {exit : LoopExit} (label : Nat → Label) (hlabel : ∀ id, (label id).Local)
    {writes : Int → Ty → Prop} (h : (leave exit label).run σ = (.ok code, τ)) :
    Woven calls writes code := by
  obtain ⟨_, _, id, -, -, -, rfl⟩ := leave_ok h
  exact .branch (hlabel id) .nil

end Lower

namespace Stmt

variable {signature : Signature} {stmts : List Stmt}

theorem trail_of_woven {stmt : Stmt} (h : (stmt.lower signature).run σ = (.ok code, τ)) (hf : σ.frames = f :: fs)
    (hg : τ.frames = g :: fs) (hwoven : Woven calls (Writes f g stmt.assigned) code) :
    Trail calls f g [stmt] code := by
  obtain ⟨g', hg', hdeepens⟩ := (lower_deepens h).frames hf
  obtain ⟨g'', hg'', hbinds⟩ := (lower_binds stmt h).frames hf
  cases hg.symm.trans hg'
  cases hg.symm.trans hg''
  have hassigned : blockAssigned [stmt] = stmt.assigned := List.append_nil _
  exact ⟨hdeepens, hbinds.names, hassigned ▸ hwoven⟩

theorem lowerBlock_trail_of
    (hstmts : ∀ stmt ∈ stmts, ∀ {σ code τ f g}, (stmt.lower signature).run σ = (.ok code, τ) →
      σ.frames = f :: fs → τ.frames = g :: fs → f.Named → Woven calls (Writes f g stmt.assigned) code)
    (h : (lowerBlock signature stmts).run σ = (.ok code, τ)) (hf : σ.frames = f :: fs)
    (hg : τ.frames = g :: fs) (hnamed : f.Named) : Trail calls f g stmts code := by
  induction stmts generalizing σ code f with
  | nil =>
    cases h
    cases hf.symm.trans hg
    exact .nil _
  | cons stmt stmts ih =>
    obtain ⟨stmtCode, restCode, σ₁, hstmt, hrest, rfl⟩ := block_cons_ok h
    obtain ⟨f₁, hf₁, hdeepens⟩ := (lower_deepens hstmt).frames hf
    have hfirst := trail_of_woven hstmt hf hf₁ (hstmts stmt List.mem_cons_self hstmt hf hf₁ hnamed)
    exact hfirst.append (ih (fun other hother => hstmts other (List.mem_cons_of_mem _ hother)) hrest hf₁
      (hdeepens.named hnamed)) hnamed

/-- The code of a statement writes the variables that it assigns to and free slots. -/
theorem lower_woven (stmt : Stmt) (h : (stmt.lower signature).run σ = (.ok code, τ))
    (hf : σ.frames = f :: fs) (hg : τ.frames = g :: fs) (hnamed : f.Named)
    (hcalls : stmt.containsCalls = true → calls) : Woven calls (Writes f g stmt.assigned) code := by
  induction stmt using Stmt.induct generalizing σ code τ f g with
  | declare ty name =>
    obtain ⟨rfl, -⟩ := declare_ok h
    exact .nil
  | init ty name value =>
    exact .of_straight ((Lower.init_straight hf h hg hcalls).mono fun _ _ => Or.inl)
  | assign name value =>
    obtain ⟨slot, hlookup, hstraight⟩ := Lower.assign_straight hf h hg hcalls
    refine .of_straight (hstraight.mono fun offset ty hw => ?_)
    exact hw.symm.imp_right fun hoccupies => ⟨name, List.mem_singleton_self _, slot, hlookup, hoccupies⟩
  | store pointer value =>
    refine (Lower.store_woven hf h hg (fun hp => hcalls ?_) fun hv => hcalls ?_).mono fun _ _ => Or.inl
    · exact Bool.or_eq_true_iff.mpr (Or.inl hp)
    · exact Bool.or_eq_true_iff.mpr (Or.inr hv)
  | ret value => exact (Lower.ret_woven hf h hg hcalls).mono fun _ _ => Or.inl
  | call callee args =>
    exact .of_straight ((Lower.discarded_straight hf h hg (hcalls rfl)).mono fun _ _ => Or.inl)
  | ifElse cond thenBlock elseBlock ihthen ihelse =>
    obtain ⟨id, condCode, thenCode, elseCode, σ₁, σ₂, σ₃, hid, hcond, hthen, helse, rfl⟩ := ifElse_ok h
    obtain ⟨f₁, hf₁, hrest₁⟩ := (Session.freshIf_advances hid).frames hf
    obtain ⟨f₂, hf₂, hgrows₂⟩ := (Lower.condition_advances cond.operand_grows hcond).frames hf₁
    obtain ⟨f₃, hf₃, -⟩ := (lowerBlock_deepens hthen).frames hf₂
    have hcondCode := Lower.condition_straight hf₁ hcond hf₂ fun hc => hcalls (by
      simp only [containsCalls, hc, Bool.true_or])
    have hcondTrail : Trail calls f f₂ [] condCode :=
      (Trail.of_woven hrest₁.grows .nil).append (.of_woven hgrows₂ (.of_straight hcondCode)) hnamed
    have hnamed₂ := hcondTrail.deepens.named hnamed
    have hthenTrail := lowerBlock_trail_of (fun stmt hmem _ _ _ _ _ hrun hf hg hnamed =>
      ihthen stmt hmem hrun hf hg hnamed fun hc => hcalls (by
        simp only [containsCalls, blockContainsCalls_iff.mpr ⟨stmt, hmem, hc⟩, Bool.or_true,
          Bool.true_or])) hthen hf₂ hf₃ hnamed₂
    have helseTrail := lowerBlock_trail_of (fun stmt hmem _ _ _ _ _ hrun hf hg hnamed =>
      ihelse stmt hmem hrun hf hg hnamed fun hc => hcalls (by
        simp only [containsCalls, blockContainsCalls_iff.mpr ⟨stmt, hmem, hc⟩, Bool.or_true]))
      helse hf₃ hg (hthenTrail.deepens.named hnamed₂)
    have hfalse : (Label.ifFalse id).Local := trivial
    have hexit : (Label.ifExit id).Local := trivial
    have hall := ((hcondTrail.append ((hthenTrail.label (.ifTrue id)).branchIf .eq hfalse) hnamed).append
      ((helseTrail.label (.ifFalse id)).branch hexit) hnamed).append ((Trail.nil g).label (.ifExit id)) hnamed
    rw [assigned, ← blockAssigned_append]
    simpa only [List.nil_append, List.append_nil] using hall.woven
  | loop cond body ih =>
    obtain ⟨id, condCode, bodyCode, σ₁, σ₂, hid, hcond, hinLoop, rfl⟩ := loop_ok h
    obtain ⟨σ₃, σ₄, hpush, hbody, hpop⟩ := Session.inLoop_ok hinLoop
    obtain ⟨f₁, hf₁, hrest₁⟩ := (Session.freshLoop_advances hid).frames hf
    obtain ⟨f₂, hf₂, hgrows₂⟩ := (Lower.condition_advances cond.operand_grows hcond).frames hf₁
    obtain ⟨f₃, hf₃, hpushed⟩ := (onFrame_ok hpush).1.frames hf₂
    obtain ⟨f₄, hf₄, -⟩ := (lowerBlock_deepens hbody).frames hf₃
    obtain ⟨g', hg', hpopped⟩ := (onFrame_ok hpop).1.frames hf₄
    cases hg.symm.trans hg'
    cases hpushed
    cases hpopped
    have hcondCode := Lower.condition_straight hf₁ hcond hf₂ fun hc => hcalls (by
      simp only [containsCalls, hc, Bool.true_or])
    have hcondTrail : Trail calls f f₂ [] condCode :=
      (Trail.of_woven hrest₁.grows .nil).append (.of_woven hgrows₂ (.of_straight hcondCode)) hnamed
    have hnamed₂ := hcondTrail.deepens.named hnamed
    have hbodyTrail := lowerBlock_trail_of (fun stmt hmem _ _ _ _ _ hrun hf hg hnamed =>
      ih stmt hmem hrun hf hg hnamed fun hc => hcalls (by
        simp only [containsCalls, blockContainsCalls_iff.mpr ⟨stmt, hmem, hc⟩, Bool.or_true]))
      hbody hf₃ hf₄ (hnamed₂.atLoops _)
    have hcondLabel : (Label.loopCond id).Local := trivial
    have hexit : (Label.loopExit id).Local := trivial
    have hall := ((hcondTrail.label (.loopCond id)).append ((hbodyTrail.loop.label (.loopBody id)).branchIf .eq hexit)
      hnamed).append (((Trail.nil f₄.popLoop).label (.loopExit id)).branch hcondLabel) hnamed
    simpa only [assigned, List.nil_append, List.append_nil] using hall.woven
  | breakLoop => exact Lower.leave_woven Label.loopExit (fun _ => trivial) h
  | continueLoop => exact Lower.leave_woven Label.loopCond (fun _ => trivial) h

theorem lowerBlock_trail (h : (lowerBlock signature stmts).run σ = (.ok code, τ)) (hf : σ.frames = f :: fs)
    (hg : τ.frames = g :: fs) (hnamed : f.Named) (hcalls : blockContainsCalls stmts = true → calls) :
    Trail calls f g stmts code :=
  lowerBlock_trail_of (fun stmt hmem _ _ _ _ _ hrun hf hg hnamed => stmt.lower_woven hrun hf hg hnamed
    fun hc => hcalls (blockContainsCalls_iff.mpr ⟨stmt, hmem, hc⟩)) h hf hg hnamed

end Stmt

end ArmBackend
