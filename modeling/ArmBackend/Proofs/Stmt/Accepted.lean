import ArmBackend.Proofs.Expr.Lowers
import ArmBackend.Proofs.Stmt.Progress
import ArmBackend.Stmt.Build

/-!
# Statements that are accepted

A name is in scope from its declaration to the end of the function, in the order of the text: blocks close
no scope. A checked statement is lowered exactly if its expressions are accepted in the scope where they
stand, it returns a value where one is due, and it leaves loops from inside of them.
-/

namespace ArmBackend

open Session (onFrame Advances onFrame_ok)
open ArmBackend.Frame (Rests Grows Follows)
open StepM (succeeds_bind_iff succeeds_lift_bind)

namespace Stmt

/-! ## What is accepted -/

mutual

/-- The names that a statement brings into scope, newest first. -/
def binds : Stmt → List String
  | .declare _ name | .init _ name _ => [name]
  | .ifElse _ thenBlock elseBlock => blockBinds elseBlock ++ blockBinds thenBlock
  | .loop _ body => blockBinds body
  | .assign .. | .store .. | .ret _ | .call .. | .breakLoop | .continueLoop => []

def blockBinds : List Stmt → List String
  | [] => []
  | stmt :: stmts => blockBinds stmts ++ stmt.binds

end

mutual

/-- Whether the statement may stand in a function that returns `returnTy`, inside a loop or not, after the
names in `scope`. The name of a declaration counts in its own value. -/
def Accepted (signatures : List Signature) (returnTy : Ty) (inLoop : Prop) (scope : List String) :
    Stmt → Prop
  | .declare .. => True
  | .init _ name value => value.Accepted signatures (name :: scope)
  | .assign name value => name ∈ scope ∧ value.Accepted signatures scope
  | .store pointer value => pointer.Accepted signatures scope ∧ value.Accepted signatures scope
  | .ret value =>
    (value.isEmpty = true ↔ returnTy.isVoid = true) ∧
      (value.isEmpty = false → value.Accepted signatures scope)
  | .call callee args => Expr.Callable signatures callee args ∧ ∀ arg ∈ args, arg.Accepted signatures scope
  | .ifElse cond thenBlock elseBlock =>
    cond.Accepted signatures scope ∧ BlockAccepted signatures returnTy inLoop scope thenBlock ∧
      BlockAccepted signatures returnTy inLoop (blockBinds thenBlock ++ scope) elseBlock
  | .loop cond body => cond.Accepted signatures scope ∧ BlockAccepted signatures returnTy True scope body
  | .breakLoop | .continueLoop => inLoop

def BlockAccepted (signatures : List Signature) (returnTy : Ty) (inLoop : Prop) (scope : List String) :
    List Stmt → Prop
  | [] => True
  | stmt :: stmts =>
    stmt.Accepted signatures returnTy inLoop scope ∧
      BlockAccepted signatures returnTy inLoop (stmt.binds ++ scope) stmts

end

mutual

def Proper (signatures : List Signature) : Stmt → Prop
  | .declare ty _ => ty.storable = true
  | .init ty _ value => ty.storable = true ∧ value.Proper signatures
  | .assign _ value => value.Proper signatures
  | .store pointer value => pointer.Proper signatures ∧ value.Proper signatures
  | .ret value => value.isEmpty = false → value.Proper signatures
  | .call _ args => ∀ arg ∈ args, arg.Proper signatures
  | .ifElse cond thenBlock elseBlock =>
    cond.Proper signatures ∧ AllProper signatures thenBlock ∧ AllProper signatures elseBlock
  | .loop cond body => cond.Proper signatures ∧ AllProper signatures body
  | .breakLoop | .continueLoop => True

def AllProper (signatures : List Signature) : List Stmt → Prop
  | [] => True
  | stmt :: stmts => stmt.Proper signatures ∧ AllProper signatures stmts

end

theorem allProper_iff {signatures : List Signature} {stmts : List Stmt} :
    AllProper signatures stmts ↔ ∀ stmt ∈ stmts, stmt.Proper signatures := by
  induction stmts with
  | nil => simp [AllProper]
  | cons stmt stmts ih => simp [AllProper, ih]

inductive Built : Stmt → Prop
  | declare {ty : Ty} {name : String} {stmt : Stmt} (h : Build.declare ty name = .ok stmt) : Built stmt
  | init {ty : Ty} {name : String} {value : Expr} {stmt : Stmt} (hvalue : value.Built)
      (h : Build.init ty name value = .ok stmt) : Built stmt
  | assign {name : String} {value : Expr} {stmt : Stmt} (hvalue : value.Built)
      (h : Build.assign name value = .ok stmt) : Built stmt
  | store {pointer value : Expr} {stmt : Stmt} (hpointer : pointer.Built) (hvalue : value.Built)
      (h : Build.store pointer value = .ok stmt) : Built stmt
  | ret {value : Expr} (hvalue : value.Built) : Built (Build.ret value)
  | call (callee : String) {args : List Expr} (hargs : ∀ arg ∈ args, arg.Built) :
      Built (Build.callStmt callee args)
  | ifElse {cond : Expr} {thenBlock elseBlock : List Stmt} {stmt : Stmt} (hcond : cond.Built)
      (hthen : ∀ inner ∈ thenBlock, Built inner) (helse : ∀ inner ∈ elseBlock, Built inner)
      (h : Build.ifElse cond thenBlock elseBlock = .ok stmt) : Built stmt
  | loop {cond : Expr} {body : List Stmt} {stmt : Stmt} (hcond : cond.Built)
      (hbody : ∀ inner ∈ body, Built inner) (h : Build.loop cond body = .ok stmt) : Built stmt
  | breakLoop : Built .breakLoop
  | continueLoop : Built .continueLoop

end Stmt

/-! ## What the checked constructors check -/

namespace Build

variable {ty : Ty} {name : String} {pointer value cond : Expr} {stmt : Stmt}

theorem value_ok {u : Unit} (h : Check.value value = .ok u) : value.ty.isVoid = false := by
  rw [Check.value] at h
  split at h
  · cases h
  · exact Bool.eq_false_iff.mpr ‹_›

theorem declare_ok (h : declare ty name = .ok stmt) : stmt = .declare ty name := by
  obtain ⟨_, -, h₁⟩ := StepM.outcome_bind_eq_ok.mp h
  cases h₁
  rfl

theorem init_ok (h : init ty name value = .ok stmt) :
    value.ty.isVoid = false ∧ stmt = .init ty name value := by
  obtain ⟨_, -, h₁⟩ := StepM.outcome_bind_eq_ok.mp h
  obtain ⟨_, -, h₂⟩ := StepM.outcome_bind_eq_ok.mp h₁
  obtain ⟨_, hvalue, h₃⟩ := StepM.outcome_bind_eq_ok.mp h₂
  cases h₃
  exact ⟨value_ok hvalue, rfl⟩

theorem assign_ok (h : assign name value = .ok stmt) :
    value.ty.isVoid = false ∧ stmt = .assign name value := by
  obtain ⟨_, hvalue, h₁⟩ := StepM.outcome_bind_eq_ok.mp h
  cases h₁
  exact ⟨value_ok hvalue, rfl⟩

theorem store_ok (h : store pointer value = .ok stmt) :
    (∃ pointee, pointer.ty = .ptr pointee ∧ pointee.storable = true) ∧ value.ty.isVoid = false ∧
      stmt = .store pointer value := by
  obtain ⟨_, hpointee, h₁⟩ := StepM.outcome_bind_eq_ok.mp h
  obtain ⟨_, hvalue, h₂⟩ := StepM.outcome_bind_eq_ok.mp h₁
  obtain ⟨_, -, h₃⟩ := StepM.outcome_bind_eq_ok.mp h₂
  cases h₃
  refine ⟨?_, value_ok hvalue, rfl⟩
  rw [pointee] at hpointee
  split at hpointee
  case isFalse => cases hpointee
  case isTrue haccepts =>
    cases hty : pointer.ty with
    | ptr pointee =>
      rw [hty] at haccepts
      exact ⟨pointee, rfl, haccepts⟩
    | _ =>
      rw [hty] at haccepts
      cases haccepts

theorem ifElse_ok {thenBlock elseBlock : List Stmt} (h : ifElse cond thenBlock elseBlock = .ok stmt) :
    cond.ty.isVoid = false ∧ stmt = .ifElse cond thenBlock elseBlock := by
  obtain ⟨_, hvalue, h₁⟩ := StepM.outcome_bind_eq_ok.mp h
  cases h₁
  exact ⟨value_ok hvalue, rfl⟩

theorem loop_ok {body : List Stmt} (h : loop cond body = .ok stmt) :
    cond.ty.isVoid = false ∧ stmt = .loop cond body := by
  obtain ⟨_, hvalue, h₁⟩ := StepM.outcome_bind_eq_ok.mp h
  cases h₁
  exact ⟨value_ok hvalue, rfl⟩

end Build

/-! ## Names -/

namespace Frame

structure Binds (names : List String) (f g : Frame) : Prop where
  names : g.names = names ++ f.names
  temporaries : g.temporaries = f.temporaries
  loops : g.loops = f.loops
  sound : f.Sound → g.Sound

variable {f g h : Frame} {ty : Ty} {name : String} {slot : Slot} {ns ms : List String}

theorem Grows.binds (hfg : Grows f g) : Binds [] f g :=
  have hfollows : Follows f g := ⟨hfg.valid, hfg.symbols⟩
  ⟨hfollows.names, hfg.temporaries, hfg.loops, hfollows.sound⟩

theorem Rests.binds (hfg : Rests f g) : Binds [] f g := hfg.grows.binds

theorem Binds.trans (hfg : Binds ns f g) (hgh : Binds ms g h) : Binds (ms ++ ns) f h where
  names := by rw [hgh.names, hfg.names, List.append_assoc]
  temporaries := hgh.temporaries.trans hfg.temporaries
  loops := hgh.loops.trans hfg.loops
  sound := fun hf => hgh.sound (hfg.sound hf)

theorem addVariable_binds (hrun : (addVariable ty name).run f = (.ok slot, g)) : Binds [name] f g := by
  have hvalid : f.Valid → g.Valid := fun hf => hf.addVariable hrun
  obtain ⟨-, hsize, rfl, rfl⟩ := addVariable_ok hrun
  exact ⟨rfl, rfl, rfl, fun hf =>
    ⟨hvalid hf.valid, List.forall_mem_cons.mpr ⟨hsize, hf.sized⟩⟩⟩

theorem releaseVariable_binds (hrun : releaseVariable.run f = (.ok (), g)) : Binds [] f g := by
  have hfollows := Follows.releaseVariable hrun
  obtain ⟨-, slot, _, _, _, -, -, rfl⟩ := releaseVariable_ok hrun
  exact ⟨rfl, rfl, rfl, hfollows.sound⟩

end Frame

open ArmBackend.Frame (Binds)

variable {σ τ : Session} {code : Code} {signature : Signature}

theorem Lower.store_binds {pointer expr : Expr} (h : (store pointer expr).run σ = (.ok code, τ)) :
    Advances (Binds []) σ τ := by
  obtain ⟨pointee, pointerSlot, pointerCode, valueSlot, valueCode, -, -, σ₁, σ₂, σ₃, σ₄, σ₅, -, hpointer,
    hpointerCode, hvalue, hvalueCode, -, -, hrelease, hrelease', -⟩ := store_ok h
  have hgrows₁ := ((onFrame_ok hpointer).1.mono Frame.reserveVariable_grows).comp
    (Expr.lower_grows hpointerCode) Grows.trans
  have hgrows₂ := ((onFrame_ok hvalue).1.mono Frame.reserveVariable_grows).comp
    (Expr.lower_grows hvalueCode) Grows.trans
  have hreleases := ((onFrame_ok hrelease).1.mono Frame.releaseVariable_binds).comp
    ((onFrame_ok hrelease').1.mono Frame.releaseVariable_binds) Binds.trans
  exact (hgrows₁.comp hgrows₂ Grows.trans).comp hreleases fun hgrows hbinds => hgrows.binds.trans hbinds

theorem Session.inLoop_binds {α : Type} {id : Nat} {step : CompileM α} {a : α} {names : List String}
    (hstep : ∀ {σ a τ}, step.run σ = (.ok a, τ) → Advances (Binds names) σ τ)
    (h : (inLoop id step).run σ = (.ok a, τ)) : Advances (Binds names) σ τ := by
  obtain ⟨σ₁, σ₂, hpush, hrun, hpop⟩ := inLoop_ok h
  have hpushed : Advances (fun f g => g = f.pushLoop id) σ σ₁ :=
    (onFrame_ok hpush).1.mono fun hrun => by cases hrun; rfl
  have hpopped : Advances (fun f g => g = f.popLoop) σ₂ τ :=
    (onFrame_ok hpop).1.mono fun hrun => by cases hrun; rfl
  refine (hpushed.comp (hstep hrun) (T := fun f g => Binds names (f.pushLoop id) g)
    fun hf hbinds => hf ▸ hbinds).comp hpopped fun {f g h} hbinds hh => ?_
  subst hh
  refine ⟨hbinds.names, hbinds.temporaries, ?_, fun hf => ?_⟩
  · rw [Frame.popLoop, hbinds.loops]
    rfl
  · have hpushed := hbinds.sound ⟨hf.valid.pushLoop id, hf.sized⟩
    exact ⟨hpushed.valid.popLoop, hpushed.sized⟩

namespace Stmt

theorem lowerBlock_binds_of {stmts : List Stmt}
    (hstmts : ∀ stmt ∈ stmts, ∀ {σ code τ}, (stmt.lower signature).run σ = (.ok code, τ) →
      Advances (Binds stmt.binds) σ τ) (h : (lowerBlock signature stmts).run σ = (.ok code, τ)) :
    Advances (Binds (blockBinds stmts)) σ τ := by
  induction stmts generalizing σ code with
  | nil =>
    cases h
    exact (Advances.refl _).mono Rests.binds
  | cons stmt stmts ih =>
    obtain ⟨stmtCode, restCode, σ₁, hstmt, hrest, -⟩ := block_cons_ok h
    exact (hstmts stmt List.mem_cons_self hstmt).comp
      (ih (fun other hother => hstmts other (List.mem_cons_of_mem _ hother)) hrest) Binds.trans

theorem lower_binds (stmt : Stmt) (h : (stmt.lower signature).run σ = (.ok code, τ)) :
    Advances (Binds stmt.binds) σ τ := by
  induction stmt using Stmt.induct generalizing σ code τ with
  | declare ty name =>
    obtain ⟨-, slot, hslot⟩ := declare_ok h
    exact (onFrame_ok hslot).1.mono Frame.addVariable_binds
  | init ty name value =>
    obtain ⟨slot, σ₁, hslot, hvalue⟩ := Lower.init_ok h
    exact ((onFrame_ok hslot).1.mono Frame.addVariable_binds).comp (value.operand_grows _ hvalue)
      fun hbinds hgrows => hbinds.trans hgrows.binds
  | assign name value => exact (Lower.assign_advances Frame.growth_grows value.operand_grows h).mono Rests.binds
  | store pointer value => exact Lower.store_binds h
  | ret value => exact (Lower.ret_advances Frame.growth_grows value.operand_grows h).mono Grows.binds
  | call callee args =>
    have hargs : ∀ arg ∈ Expr.operands args, arg.Keeps Grows :=
      Expr.forall_operands.mpr fun arg _ => arg.operand_grows
    exact (Lower.call_advances Frame.growth_grows hargs h).mono Grows.binds
  | ifElse cond thenBlock elseBlock ihthen ihelse =>
    obtain ⟨id, condCode, thenCode, elseCode, σ₁, σ₂, σ₃, hid, hcond, hthen, helse, -⟩ := ifElse_ok h
    have hcond₁ := (Session.freshIf_advances hid).comp (Lower.condition_advances cond.operand_grows hcond)
      fun hrest hgrows => hrest.binds.trans hgrows.binds
    have hthen₁ := hcond₁.comp (lowerBlock_binds_of (fun stmt hmem _ _ _ => ihthen stmt hmem) hthen)
      Binds.trans
    simpa only [binds, List.append_nil] using hthen₁.comp
      (lowerBlock_binds_of (fun stmt hmem _ _ _ => ihelse stmt hmem) helse) Binds.trans
  | loop cond body ih =>
    obtain ⟨id, condCode, bodyCode, σ₁, σ₂, hid, hcond, hbody, -⟩ := loop_ok h
    have hcond₁ := (Session.freshLoop_advances hid).comp (Lower.condition_advances cond.operand_grows hcond)
      fun hrest hgrows => hrest.binds.trans hgrows.binds
    simpa only [binds, List.append_nil] using hcond₁.comp (Session.inLoop_binds (fun hrun =>
      lowerBlock_binds_of (fun stmt hmem _ _ _ => ih stmt hmem) hrun) hbody) Binds.trans
  | breakLoop => exact (Lower.leave_advances Frame.growth_rests h).mono Rests.binds
  | continueLoop => exact (Lower.leave_advances Frame.growth_rests h).mono Rests.binds

theorem lowerBlock_binds {stmts : List Stmt} (h : (lowerBlock signature stmts).run σ = (.ok code, τ)) :
    Advances (Binds (blockBinds stmts)) σ τ :=
  lowerBlock_binds_of (fun stmt _ _ _ _ => stmt.lower_binds) h

end Stmt

end ArmBackend
