import ArmBackend.Proofs.Stmt.Branches
import ArmBackend.Proofs.Stmt.Woven

/-!
# Places in a block

A statement may stand deep in the blocks of another one. Its code ends where what is lowered behind it begins,
up to the end of the outermost block.
-/

namespace ArmBackend

open Code (Closed Trail)
open Session (onFrame_ok)
open Label (Exits)
open ArmBackend.Frame (Deepens)

variable {σ τ : Session} {f g : Frame} {fs : List Frame} {code : Code} {signature : Signature}

/-- `stmt` stands in the block, and `rest` is what stands behind it in the text. `looped` tells whether a loop
leads back to it. -/
inductive Stmt.Occurs (stmt : Stmt) : List Stmt → Bool → List Stmt → Prop
  | here (rest : List Stmt) : Occurs stmt (stmt :: rest) false rest
  | later (first : Stmt) {block rest : List Stmt} {looped : Bool} (h : Occurs stmt block looped rest) :
      Occurs stmt (first :: block) looped rest
  | thenBlock (cond : Expr) {block rest : List Stmt} {looped : Bool} (h : Occurs stmt block looped rest)
      (elseBlock later : List Stmt) :
      Occurs stmt (.ifElse cond block elseBlock :: later) looped (rest ++ (elseBlock ++ later))
  | elseBlock (cond : Expr) (thenBlock : List Stmt) {block rest : List Stmt} {looped : Bool}
      (h : Occurs stmt block looped rest) (later : List Stmt) :
      Occurs stmt (.ifElse cond thenBlock block :: later) looped (rest ++ later)
  | body (cond : Expr) {block rest : List Stmt} {looped : Bool} (h : Occurs stmt block looped rest)
      (later : List Stmt) : Occurs stmt (.loop cond block :: later) true (rest ++ later)

/-- The code of `stmt` ends where `back` begins, and the frame there is `scope`. -/
def Stmt.EndsAt (stmt : Stmt) (signature : Signature) (code back : Code) (scope : Frame) (fs : List Frame) : Prop :=
  ∃ front stmtCode σ₁ σ₂, code = front ++ stmtCode ++ back ∧
    (stmt.lower signature).run σ₁ = (.ok stmtCode, σ₂) ∧ σ₂.frames = scope :: fs

theorem Stmt.EndsAt.within {stmt : Stmt} {back : Code} {scope : Frame}
    (h : stmt.EndsAt signature code back scope fs) (before after : Code) :
    stmt.EndsAt signature (before ++ code ++ after) (back ++ after) scope fs := by
  obtain ⟨front, stmtCode, σ₁, σ₂, rfl, hrun, hscope⟩ := h
  exact ⟨before ++ front, stmtCode, σ₁, σ₂, by simp only [List.append_assoc], hrun, hscope⟩

namespace Stmt

theorem lower_frames {stmt : Stmt} (h : (stmt.lower signature).run σ = (.ok code, τ)) (hf : σ.frames = f :: fs) :
    ∃ g, τ.frames = g :: fs ∧ Deepens f g ∧ g.loops = f.loops := by
  obtain ⟨g, hg, hdeepens⟩ := (lower_deepens h).frames hf
  obtain ⟨g', hg', hloops⟩ := stmt.lower_tight.frames h hf
  cases hg.symm.trans hg'
  exact ⟨g, hg, hdeepens, hloops⟩

theorem lowerBlock_frames {block : List Stmt} (h : (lowerBlock signature block).run σ = (.ok code, τ))
    (hf : σ.frames = f :: fs) : ∃ g, τ.frames = g :: fs ∧ Deepens f g ∧ g.loops = f.loops := by
  obtain ⟨g, hg, hdeepens⟩ := (lowerBlock_deepens h).frames hf
  obtain ⟨g', hg', hloops⟩ := (lowerBlock_tight block).frames h hf
  cases hg.symm.trans hg'
  exact ⟨g, hg, hdeepens, hloops⟩

theorem ifElse_frames {cond : Expr} {thenBlock elseBlock : List Stmt}
    (h : ((Stmt.ifElse cond thenBlock elseBlock).lower signature).run σ = (.ok code, τ))
    (hf : σ.frames = f :: fs) (hnamed : f.Named) :
    ∃ id condCode thenCode elseCode σ₁ σ₂ f₁ f₂ g,
      (σ₁.frames = f₁ :: fs ∧ f₁.Named ∧ f₁.loops = f.loops) ∧
      (lowerBlock signature thenBlock).run σ₁ = (.ok thenCode, σ₂) ∧
      (σ₂.frames = f₂ :: fs ∧ f₂.Named ∧ f₂.loops = f.loops) ∧
      (lowerBlock signature elseBlock).run σ₂ = (.ok elseCode, τ) ∧
      (τ.frames = g :: fs ∧ g.Named ∧ g.loops = f.loops) ∧
      code = condCode ++ .instr (.bCond .eq (.ifFalse id)) :: .label (.ifTrue id) :: thenCode ++
        .instr (.b (.ifExit id)) :: .label (.ifFalse id) :: elseCode ++ [.label (.ifExit id)] := by
  obtain ⟨id, condCode, thenCode, elseCode, σ₀, σ₁, σ₂, hid, hcond, hthen, helse, hcode⟩ := ifElse_ok h
  obtain ⟨f₀, hf₀, hrest⟩ := (Session.freshIf_advances hid).frames hf
  obtain ⟨f₁, hf₁, hgrows⟩ := (Lower.condition_advances cond.operand_grows hcond).frames hf₀
  obtain ⟨f₂, hf₂, hdeepens₂, hloops₂⟩ := lowerBlock_frames hthen hf₁
  obtain ⟨g, hg, hdeepens, hloops⟩ := lowerBlock_frames helse hf₂
  have hloops₁ : f₁.loops = f.loops := hgrows.loops.trans hrest.loops
  have hnamed₁ := (hrest.grows.deepens.trans hgrows.deepens).named hnamed
  have hnamed₂ := hdeepens₂.named hnamed₁
  exact ⟨id, condCode, thenCode, elseCode, σ₁, σ₂, f₁, f₂, g, ⟨hf₁, hnamed₁, hloops₁⟩, hthen,
    ⟨hf₂, hnamed₂, hloops₂.trans hloops₁⟩, helse,
    ⟨hg, hdeepens.named hnamed₂, hloops.trans (hloops₂.trans hloops₁)⟩, hcode⟩

theorem loop_frames {cond : Expr} {body : List Stmt}
    (h : ((Stmt.loop cond body).lower signature).run σ = (.ok code, τ)) (hf : σ.frames = f :: fs)
    (hnamed : f.Named) :
    ∃ id condCode bodyCode σ₁ σ₂ f₁ f₂,
      (σ₁.frames = f₁ :: fs ∧ f₁.Named ∧ f₁.loops = id :: f.loops) ∧
      (lowerBlock signature body).run σ₁ = (.ok bodyCode, σ₂) ∧
      (σ₂.frames = f₂ :: fs ∧ f₂.Named ∧ f₂.loops = id :: f.loops) ∧ τ.frames = f₂.popLoop :: fs ∧
      code = .label (.loopCond id) :: condCode ++ .instr (.bCond .eq (.loopExit id)) :: .label (.loopBody id) ::
        bodyCode ++ [.instr (.b (.loopCond id)), .label (.loopExit id)] := by
  obtain ⟨id, condCode, bodyCode, σ₁, σ₂, hid, hcond, hinLoop, hcode⟩ := loop_ok h
  obtain ⟨σ₃, σ₄, hpush, hbody, hpop⟩ := Session.inLoop_ok hinLoop
  obtain ⟨f₁, hf₁, hrest₁⟩ := (Session.freshLoop_advances hid).frames hf
  obtain ⟨f₂, hf₂, hgrows₂⟩ := (Lower.condition_advances cond.operand_grows hcond).frames hf₁
  obtain ⟨f₃, hf₃, hpushed⟩ := (onFrame_ok hpush).1.frames hf₂
  cases hpushed
  obtain ⟨f₄, hf₄, hdeepens₄, hloops₄⟩ := lowerBlock_frames hbody hf₃
  obtain ⟨f₅, hf₅, hpopped⟩ := (onFrame_ok hpop).1.frames hf₄
  cases hpopped
  have hloops₃ : id :: f₂.loops = id :: f.loops := congrArg (id :: ·) (hgrows₂.loops.trans hrest₁.loops)
  have hnamed₃ := ((hrest₁.grows.deepens.trans hgrows₂.deepens).named hnamed).atLoops (id :: f₂.loops)
  exact ⟨id, condCode, bodyCode, σ₃, σ₄, f₂.pushLoop id, f₄, ⟨hf₃, hnamed₃, hloops₃⟩, hbody,
    ⟨hf₄, hdeepens₄.named hnamed₃, hloops₄.trans hloops₃⟩, hf₅, hcode⟩

/-- What is lowered behind a statement of a block, inside of the loops `loops`. -/
structure Tail (signature : Signature) (loops : List Nat) (g scope : Frame) (looped : Bool) (rest : List Stmt)
    (back : Code) : Prop where
  named : scope.Named
  trail : Trail True { scope with loops := g.loops } g rest back
  closed : looped = false → Closed (Exits signature.name loops) back

variable {scope k : Frame} {loops : List Nat} {looped : Bool} {rest later : List Stmt} {back after : Code}

theorem Tail.nil (hnamed : g.Named) : Tail signature loops g g false [] [] :=
  ⟨hnamed, .nil g, fun _ _ => nofun⟩

theorem Tail.append (h : Tail signature loops g scope looped rest back) (htrail : Trail True g k later after)
    (hclosed : looped = false → Closed (Exits signature.name loops) after) (hloops : k.loops = g.loops) :
    Tail signature loops k scope looped (rest ++ later) (back ++ after) where
  named := h.named
  trail := by
    rw [hloops]
    exact h.trail.append htrail (h.named.atLoops _)
  closed hlooped := (h.closed hlooped).append (hclosed hlooped)

theorem Tail.close (h : Tail signature loops g scope looped rest back) (htrail : Trail True g g [] after)
    (hclosed : looped = false → Closed (Exits signature.name loops) after) :
    Tail signature loops g scope looped rest (back ++ after) := by
  have happend := h.append htrail hclosed rfl
  rwa [List.append_nil] at happend

theorem Tail.popLoop {id : Nat} {outer : List Nat} (h : Tail signature loops g scope looped rest back)
    (hloops : g.loops = id :: outer) : Tail signature outer g.popLoop scope true rest back := by
  refine ⟨h.named, ?_, nofun⟩
  have hpop : g.popLoop.loops = outer := congrArg List.tail hloops
  have htrail := h.trail
  rw [hloops] at htrail
  rw [hpop]
  exact htrail.loop

theorem Tail.append_block (h : Tail signature loops g scope looped rest back) (hg : σ.frames = g :: fs)
    (hlower : (lowerBlock signature later).run σ = (.ok after, τ)) (hk : τ.frames = k :: fs) (hnamed : g.Named)
    (hloops : looped = false → g.loops = loops) :
    Tail signature loops k scope looped (rest ++ later) (back ++ after) := by
  obtain ⟨k', hk', -, hsame⟩ := lowerBlock_frames hlower hg
  cases hk.symm.trans hk'
  exact h.append (lowerBlock_trail hlower hg hk hnamed fun _ => trivial)
    (fun hlooped => hloops hlooped ▸ lowerBlock_closed hlower hg) hsame

/-- Behind a statement of the first branch, the second one is jumped over. -/
theorem Tail.append_else {elseBlock : List Stmt} {elseCode : Code} {id : Nat} {υ : Session}
    (h : Tail signature loops f scope looped rest back) (hf : σ.frames = f :: fs) (hnamed : f.Named)
    (hloops : f.loops = loops) (helse : (lowerBlock signature elseBlock).run σ = (.ok elseCode, τ))
    (hg : τ.frames = g :: fs) (hnamed' : g.Named) (hloops' : g.loops = loops)
    (hlater : (lowerBlock signature later).run τ = (.ok after, υ)) (hk : υ.frames = k :: fs) :
    Tail signature loops k scope looped (rest ++ (elseBlock ++ later))
      (back ++ (.instr (.b (.ifExit id)) :: .label (.ifFalse id) :: elseCode ++ .label (.ifExit id) :: after)) := by
  obtain ⟨k', hk', -, hsame⟩ := lowerBlock_frames hlater hg
  cases hk.symm.trans hk'
  have hexit : (Label.ifExit id).Local := trivial
  have helseTrail : Trail True f g _ _ := lowerBlock_trail helse hf hg hnamed fun _ => trivial
  have hlaterTrail : Trail True g k _ _ := lowerBlock_trail hlater hg hk hnamed' fun _ => trivial
  have helseClosed := hloops ▸ lowerBlock_closed helse hf
  have hlaterClosed := hloops' ▸ lowerBlock_closed hlater hg
  refine h.append (((helseTrail.label (.ifFalse id)).branch hexit).append (hlaterTrail.label (.ifExit id)) hnamed)
    (fun _ label hmem => ?_) (hsame.trans (hloops'.trans hloops.symm))
  have hcases : label = .ifExit id ∨ .branch label ∈ elseCode.references ∨ .branch label ∈ after.references := by
    simpa [Instr.reference?] using hmem
  rcases hcases with rfl | hmem | hmem
  · simp
  · exact (helseClosed label hmem).imp_left fun hlabel => by simp [hlabel]
  · exact (hlaterClosed label hmem).imp_left fun hlabel => by simp [hlabel]

/-- Behind the body of a loop, the loop leads back. -/
theorem Tail.close_loop {id : Nat} (h : Tail signature (id :: loops) g scope looped rest back)
    (hloops : g.loops = id :: loops) :
    Tail signature loops g.popLoop scope true rest
      (back ++ [.instr (.b (.loopCond id)), .label (.loopExit id)]) := by
  have hcond : (Label.loopCond id).Local := trivial
  exact (h.popLoop hloops).close (((Trail.nil g.popLoop).label (.loopExit id)).branch hcond) nofun

/-- The code of a block, cut behind a statement in it. -/
theorem Occurs.lower {stmt : Stmt} {block : List Stmt} (hoccurs : stmt.Occurs block looped rest)
    (h : (lowerBlock signature block).run σ = (.ok code, τ)) (hf : σ.frames = f :: fs)
    (hg : τ.frames = g :: fs) (hnamed : f.Named) :
    ∃ back scope, stmt.EndsAt signature code back scope fs ∧
      Tail signature f.loops g scope looped rest back := by
  induction hoccurs generalizing σ τ f g code with
  | here rest =>
    obtain ⟨stmtCode, restCode, σ₁, hstmt, hrest, rfl⟩ := block_cons_ok h
    obtain ⟨scope, hscope, hdeepens, hloops⟩ := lower_frames hstmt hf
    have hnamed' := hdeepens.named hnamed
    exact ⟨restCode, scope, ⟨[], stmtCode, σ, σ₁, rfl, hstmt, hscope⟩,
      (Tail.nil hnamed').append_block hscope hrest hg hnamed' fun _ => hloops⟩
  | later first hoccurs ih =>
    obtain ⟨firstCode, restCode, σ₁, hfirst, hrest, rfl⟩ := block_cons_ok h
    obtain ⟨f₁, hf₁, hdeepens, hloops⟩ := lower_frames hfirst hf
    obtain ⟨back, scope, hends, htail⟩ := ih hrest hf₁ hg (hdeepens.named hnamed)
    refine ⟨back, scope, ?_, hloops ▸ htail⟩
    have hends' := hends.within firstCode []
    rwa [List.append_nil, List.append_nil] at hends'
  | thenBlock cond hoccurs elseBlock later ih =>
    obtain ⟨ifCode, laterCode, σ₃, hif, hlater, rfl⟩ := block_cons_ok h
    obtain ⟨id, condCode, thenCode, elseCode, σ₁, σ₂, f₁, f₂, f₃, ⟨hf₁, hnamed₁, hloops₁⟩, hthen,
      ⟨hf₂, hnamed₂, hloops₂⟩, helse, ⟨hf₃, hnamed₃, hloops₃⟩, rfl⟩ := ifElse_frames hif hf hnamed
    obtain ⟨back, scope, hends, htail⟩ := ih hthen hf₁ hf₂ hnamed₁
    have hends' := hends.within (condCode ++ [.instr (.bCond .eq (.ifFalse id)), .label (.ifTrue id)])
      (.instr (.b (.ifExit id)) :: .label (.ifFalse id) :: elseCode ++ .label (.ifExit id) :: laterCode)
    exact ⟨_, scope, by simpa using hends',
      (hloops₁ ▸ htail).append_else hf₂ hnamed₂ hloops₂ helse hf₃ hnamed₃ hloops₃ hlater hg⟩
  | elseBlock cond thenBlock hoccurs later ih =>
    obtain ⟨ifCode, laterCode, σ₃, hif, hlater, rfl⟩ := block_cons_ok h
    obtain ⟨id, condCode, thenCode, elseCode, σ₁, σ₂, f₁, f₂, f₃, -, hthen, ⟨hf₂, hnamed₂, hloops₂⟩, helse,
      ⟨hf₃, hnamed₃, hloops₃⟩, rfl⟩ := ifElse_frames hif hf hnamed
    obtain ⟨back, scope, hends, htail⟩ := ih helse hf₂ hf₃ hnamed₂
    have hends' := hends.within (condCode ++ .instr (.bCond .eq (.ifFalse id)) :: .label (.ifTrue id) :: thenCode ++
      [.instr (.b (.ifExit id)), .label (.ifFalse id)]) ([.label (.ifExit id)] ++ laterCode)
    have hclosing := (hloops₂ ▸ htail).close ((Trail.nil f₃).label (.ifExit id))
      fun _ label hmem => absurd hmem List.not_mem_nil
    exact ⟨_, scope, by simpa using hends', hclosing.append_block hf₃ hlater hg hnamed₃ fun _ => hloops₃⟩
  | body cond hoccurs later ih =>
    obtain ⟨loopCode, laterCode, σ₃, hloop, hlater, rfl⟩ := block_cons_ok h
    obtain ⟨id, condCode, bodyCode, σ₁, σ₂, f₁, f₂, ⟨hf₁, hnamed₁, hloops₁⟩, hbody, ⟨hf₂, hnamed₂, hloops₂⟩,
      hf₃, rfl⟩ := loop_frames hloop hf hnamed
    obtain ⟨back, scope, hends, htail⟩ := ih hbody hf₁ hf₂ hnamed₁
    have hends' := hends.within (.label (.loopCond id) :: condCode ++
      [.instr (.bCond .eq (.loopExit id)), .label (.loopBody id)])
      ([.instr (.b (.loopCond id)), .label (.loopExit id)] ++ laterCode)
    have hclosing := (hloops₁ ▸ htail).close_loop hloops₂
    exact ⟨_, scope, by simpa using hends',
      hclosing.append_block hf₃ hlater hg (hnamed₂.atLoops _) (by simp)⟩

end Stmt

end ArmBackend
