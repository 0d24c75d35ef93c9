import ArmBackend.Proofs.Expr.Checked
import ArmBackend.Proofs.Expr.Progress
import ArmBackend.Proofs.Frame.Success

/-!
# Expressions that are accepted

A checked expression without arrays is lowered exactly if its variables are in scope and its calls fit
the functions that they name. Neither its depth nor the number of live temporaries matters.
-/

namespace ArmBackend

open Session (onFrame Advances Keeps onFrame_ok)
open ArmBackend.Frame (Rests Over)
open StepM (succeeds_bind_iff succeeds_lift_bind)

/-! ## What is accepted -/

/-- Whether a call with these arguments fits the signature. All arguments are passed in registers. -/
def Signature.Takes (signature : Signature) (args : List Expr) : Prop :=
  args.length ≤ Register.argBank.length ∧
    List.Forall₂ (fun param arg => param.accepts arg = true) (signature.params.map Param.ty)
      (args.map Expr.ty)

namespace Expr

def Callable (signatures : List Signature) (callee : String) (args : List Expr) : Prop :=
  if callee = trapCallee then args ≠ [] ∧ args.length ≤ Register.argBank.length + 1
  else ∃ signature ∈ signatures, signature.name = callee ∧ signature.Takes args

def Yields (signatures : List Signature) (callee : String) : Prop :=
  callee ≠ trapCallee →
    ∀ signature ∈ signatures, signature.name = callee → signature.returnTy.isVoid = false

mutual

/-- Whether every variable is in scope, and every call is one of a function that takes the arguments and
returns a value. -/
def Accepted (signatures : List Signature) (scope : List String) : Expr → Prop
  | .literal .. | .str .. => True
  | .var name _ => name ∈ scope
  | .deref pointer _ => pointer.Accepted signatures scope
  | .call callee args _ =>
    Callable signatures callee args ∧ Yields signatures callee ∧ AllAccepted signatures scope args
  | .binary _ lhs rhs _ => lhs.Accepted signatures scope ∧ rhs.Accepted signatures scope
  | .unary _ operand _ => operand.Accepted signatures scope
  | .array .. | .empty _ => False

def AllAccepted (signatures : List Signature) (scope : List String) : List Expr → Prop
  | [] => True
  | expr :: exprs => expr.Accepted signatures scope ∧ AllAccepted signatures scope exprs

end

theorem allAccepted_iff {signatures : List Signature} {scope : List String} {exprs : List Expr} :
    AllAccepted signatures scope exprs ↔ ∀ expr ∈ exprs, expr.Accepted signatures scope := by
  induction exprs with
  | nil => simp [AllAccepted]
  | cons expr exprs ih => simp [AllAccepted, ih]

mutual

/-- Whether the expression builds no array, has no part without a value, and gives every call the type
that a function of the name returns, if there is one. -/
def Proper (signatures : List Signature) : Expr → Prop
  | .literal .. | .str .. | .var .. => True
  | .deref pointer _ => pointer.Proper signatures
  | .call callee args ty =>
    (if callee = trapCallee then ty = .int
      else ∀ signature ∈ signatures, signature.name = callee →
        ∃ other ∈ signatures, other.name = callee ∧ ty = other.returnTy) ∧
      AllProper signatures args
  | .binary _ lhs rhs _ => lhs.Proper signatures ∧ rhs.Proper signatures
  | .unary _ operand _ => operand.Proper signatures
  | .array .. | .empty _ => False

def AllProper (signatures : List Signature) : List Expr → Prop
  | [] => True
  | expr :: exprs => expr.Proper signatures ∧ AllProper signatures exprs

end

theorem allProper_iff {signatures : List Signature} {exprs : List Expr} :
    AllProper signatures exprs ↔ ∀ expr ∈ exprs, expr.Proper signatures := by
  induction exprs with
  | nil => simp [AllProper]
  | cons expr exprs ih => simp [AllProper, ih]

end Expr

structure Signature.Sized (signature : Signature) : Prop where
  params : ∀ param ∈ signature.params, param.ty.storable = true
  returnTy : signature.returnTy.isVoid = false → signature.returnTy.storable = true

/-! ## Sessions that know the functions -/

namespace Session

/-- The tables hold the signatures, those of one name have the same types, and all are sized. -/
structure Knows (signatures : List Signature) (σ : Session) : Prop where
  sound : ∀ {name signature}, (newest? σ.declared name).or (newest? σ.defined name) = some signature →
    signature ∈ signatures ∧ signature.name = name
  complete : ∀ signature ∈ signatures,
    ∃ found, (newest? σ.declared signature.name).or (newest? σ.defined signature.name) = some found
  agree : ∀ a ∈ signatures, ∀ b ∈ signatures, a.name = b.name → a.sameTypes b = true
  sized : ∀ signature ∈ signatures, signature.Sized

namespace Knows

variable {signatures : List Signature} {signature : Signature} {σ : Session}

theorem same (h : σ.Knows signatures) (hmem : signature ∈ signatures) {other : Signature}
    (hother : other ∈ signatures) (hname : other.name = signature.name) :
    other.returnTy = signature.returnTy ∧
      other.params.map Param.ty = signature.params.map Param.ty := by
  have hagree := h.agree other hother signature hmem hname
  simp only [Signature.sameTypes, Bool.and_eq_true, beq_iff_eq] at hagree
  exact ⟨hagree.1.2, hagree.2⟩

theorem takes_iff (h : σ.Knows signatures) (hmem : signature ∈ signatures) {args : List Expr} :
    (∃ other ∈ signatures, other.name = signature.name ∧ other.Takes args) ↔ signature.Takes args := by
  refine ⟨?_, fun htakes => ⟨signature, hmem, rfl, htakes⟩⟩
  rintro ⟨other, hother, hname, hlength, hforall⟩
  exact ⟨hlength, (h.same hmem hother hname).2 ▸ hforall⟩

theorem yields_iff (h : σ.Knows signatures) (hmem : signature ∈ signatures) :
    (∀ other ∈ signatures, other.name = signature.name → other.returnTy.isVoid = false) ↔
      signature.returnTy.isVoid = false :=
  ⟨fun hall => hall signature hmem rfl, fun hvoid _ hother hname =>
    (h.same hmem hother hname).1 ▸ hvoid⟩

end Knows

end Session

/-- The frame is valid, and every name stands for a slot of some size. -/
structure Frame.Sound (f : Frame) : Prop where
  valid : f.Valid
  sized : ∀ entry ∈ f.symbols, 0 < entry.2.ty.size

def Frame.names (f : Frame) : List String := f.symbols.map Prod.fst

structure Session.Hosts (signatures : List Signature) (σ : Session) (f : Frame) : Prop where
  frames : ∃ fs, σ.frames = f :: fs
  sound : f.Sound
  knows : σ.Knows signatures

structure Frame.Follows (f g : Frame) : Prop where
  valid : f.Valid → g.Valid
  symbols : g.symbols = f.symbols

namespace Frame.Follows

variable {f g h : Frame}

theorem names (hfg : Follows f g) : g.names = f.names := congrArg (List.map Prod.fst) hfg.symbols

theorem sound (hfg : Follows f g) (hf : f.Sound) : g.Sound :=
  ⟨hfg.valid hf.valid, by rw [hfg.symbols]; exact hf.sized⟩

theorem of_rests (hfg : Rests f g) : Follows f g := ⟨fun hf => hf.of_rests hfg, hfg.symbols⟩

theorem trans (hfg : Follows f g) (hgh : Follows g h) : Follows f h :=
  ⟨fun hf => hgh.valid (hfg.valid hf), hgh.symbols.trans hfg.symbols⟩

theorem reserveTemp {ty : Ty} {res : Reservation}
    (hrun : (Frame.reserveTemp ty).run f = (.ok res, g)) : Follows f g := by
  refine ⟨fun hf => hf.reserveTemp hrun, ?_⟩
  obtain ⟨-, ⟨reg, -, -, -, rfl⟩ | ⟨-, rfl⟩⟩ := reserveTemp_ok hrun <;> rfl

theorem releaseTemp (hrun : Frame.releaseTemp.run f = (.ok (), g)) : Follows f g := by
  refine ⟨fun hf => ?_, ?_⟩
  · have := hf.releaseTemp
    rwa [hrun] at this
  · obtain ⟨_, _, -, ⟨_, -, rfl⟩ | ⟨_, _, -, -, rfl⟩⟩ := releaseTemp_ok hrun <;> rfl

theorem releaseVariable (hrun : Frame.releaseVariable.run f = (.ok (), g)) : Follows f g := by
  refine ⟨fun hf => ?_, ?_⟩
  · have := hf.releaseVariable
    rwa [hrun] at this
  · obtain ⟨-, _, _, _, _, -, -, rfl⟩ := releaseVariable_ok hrun
    rfl

end Frame.Follows

theorem Frame.reserveTemp_assigned {f g : Frame} {ty : Ty} {res : Reservation}
    (h : (reserveTemp ty).run f = (.ok res, g)) : res.isAssigned = true ∧ res.ty = ty := by
  obtain ⟨-, ⟨reg, -, -, rfl, -⟩ | ⟨rfl, -⟩⟩ := reserveTemp_ok h <;> exact ⟨rfl, rfl⟩

variable {signatures : List Signature} {σ τ : Session} {f g : Frame} {code : Code}

theorem Session.Knows.of_tables (h : σ.Knows signatures) (hdeclared : τ.declared = σ.declared)
    (hdefined : τ.defined = σ.defined) : τ.Knows signatures where
  sound := by
    rw [hdeclared, hdefined]
    exact h.sound
  complete := by
    rw [hdeclared, hdefined]
    exact h.complete
  agree := h.agree
  sized := h.sized

namespace Session.Hosts

theorem advances {R : Frame → Frame → Prop} (h : σ.Hosts signatures f) (hadvance : Advances R σ τ)
    (hR : ∀ {g}, R f g → f.Sound → g.Sound) : ∃ g, τ.Hosts signatures g ∧ R f g := by
  obtain ⟨fs, hf⟩ := h.frames
  obtain ⟨g, hg, hrel⟩ := hadvance.frames hf
  exact ⟨g, ⟨⟨fs, hg⟩, hR hrel h.sound, h.knows.of_tables hadvance.declared hadvance.defined⟩, hrel⟩

theorem rests (h : σ.Hosts signatures f) (hadvance : Advances Rests σ τ) :
    ∃ g, τ.Hosts signatures g ∧ Rests f g :=
  h.advances hadvance fun hrest => (Frame.Follows.of_rests hrest).sound

theorem onFrame_succeeds {α : Type} {operation : FrameM α} (h : σ.Hosts signatures f) :
    (onFrame operation).Succeeds σ ↔ operation.Succeeds f := by
  obtain ⟨fs, hf⟩ := h.frames
  exact Session.onFrame_succeeds hf

theorem reserveTemp {ty : Ty} {res : Reservation} (h : σ.Hosts signatures f)
    (hrun : (onFrame (Frame.reserveTemp ty)).run σ = (.ok res, τ)) :
    ∃ g, τ.Hosts signatures g ∧ (Frame.reserveTemp ty).run f = (.ok res, g) :=
  h.advances (onFrame_ok hrun).1 fun hrun => (Frame.Follows.reserveTemp hrun).sound

theorem releaseTemp_succeeds (h : σ.Hosts signatures f) (hne : f.temporaries ≠ []) :
    (onFrame Frame.releaseTemp).Succeeds σ :=
  h.onFrame_succeeds.mpr (h.sound.valid.releaseTemp_succeeds hne)

end Session.Hosts

/-- A part of an expression is lowered exactly if it is accepted. -/
structure Expr.Lowers (signatures : List Signature) (expr : Expr) : Prop where
  keeps : expr.operand.Keeps Rests
  succeeds : ∀ {target σ f}, target.isAssigned = true → σ.Hosts signatures f →
    ((expr.lower target).Succeeds σ ↔ expr.Accepted signatures f.names)
  storable : ∀ {scope}, expr.containsCalls = true → expr.Accepted signatures scope → 0 < expr.ty.size

end ArmBackend
