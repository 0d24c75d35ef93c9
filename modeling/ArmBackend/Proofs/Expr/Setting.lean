import ArmBackend.Proofs.Expr.Landing
import ArmBackend.Proofs.Machine.Straight

/-!
# The setting of an expression

How a machine state stands for the values that an expression is evaluated with: the variables are in
their slots, memory is read outside the part that the code uses itself, and functions return what
calls of them are worth.
-/

namespace ArmBackend

/-! ## Variables and memory -/

namespace Context

/-- The state holds what the context says, as far as the frame knows where. -/
structure Agrees (ctx : Context) (f : Frame) (bound : Nat) (s : State) : Prop where
  value : ∀ {name ty v}, ctx.value name ty = some v →
    ∃ slot, f.symbols.lookup name = some slot ∧ 0 < slot.ty.size ∧ slot.ty.size ≤ slot.offset ∧
      slot.offset ≤ f.position ∧ s.read slot.reservation = v
  address : ∀ {name a}, ctx.address name = some a →
    ∃ slot, f.symbols.lookup name = some slot ∧
      a = s.regs .framePointer - BitVec.ofNat 64 slot.offset
  load : ∀ {width a v}, ctx.load width a = some v →
    s.load width a = v ∧
      ∀ b, (b - a).toNat < width.bytes → ¬ Scratch (s.regs .framePointer) f.position bound b

theorem Agrees.of_only {ctx : Context} {f g : Frame} {bound : Nat} {s t : State}
    {regs : Register → Prop} (h : ctx.Agrees f bound s) (hfg : f.Within g)
    (hlt : f.position < 2 ^ 64) (hfp : ¬ regs .framePointer)
    (honly : ChangesOnly regs (Scratch (s.regs .framePointer) f.position bound) s t) :
    ctx.Agrees g bound t where
  value := fun {name ty v} hv => by
    obtain ⟨slot, hlookup, hsize, hle, hposition, hread⟩ := h.value hv
    refine ⟨slot, hfg.symbols ▸ hlookup, hsize, hle, Nat.le_trans hposition hfg.position, ?_⟩
    refine (honly.read_eq hfp (fun _ hreg => by cases hreg) fun a ha hmem => ?_).trans hread
    have := (Slot.covers_iff hsize hle (by omega)).mp ha
    exact absurd hmem.1 (by omega)
  address := fun {name a} ha => by
    obtain ⟨slot, hlookup, hoffset⟩ := h.address ha
    exact ⟨slot, hfg.symbols ▸ hlookup, by rw [hoffset, honly.reg _ hfp]⟩
  load := fun {width a v} hv => by
    obtain ⟨hload, hout⟩ := h.load hv
    refine ⟨(honly.load_eq hout).trans hload, fun b hb hmem => hout b hb ?_⟩
    rw [honly.reg _ hfp] at hmem
    exact hmem.mono hfg.position (Nat.le_refl _)

def Texts (ctx : Context) (w : World) (data : StaticData) : Prop :=
  ∀ {text id}, data.texts.idxOf? text = some id → w.symbol (.datum .string id) = ctx.text text

theorem Texts.restrict {ctx : Context} {w : World} {data data' : StaticData}
    (h : ctx.Texts w data') (htexts : data.texts <+: data'.texts) : ctx.Texts w data :=
  fun htext => h (htexts.findIdx?_eq_some htext)

end Context

/-! ## Functions -/

/-- The state after a function returned `result` to a caller in state `s`. -/
structure Answers (result : Option Word) (s t : State) : Prop where
  result : ∀ v, result = some v → t.regs .result = v
  returns : Returns s t
  kept : ∀ reg, Register.Kept reg → t.regs reg = s.regs reg

/-- Calls behave as the context says, where the stack has `room` bytes left. -/
def World.Serves (w : World) (ctx : Context) (label : String → Label) (room : Nat) : Prop :=
  ∀ {callee values result s}, ctx.call callee values = some result → s.StackAligned →
    room ≤ (s.regs .stackPointer).toNat →
    (∀ arg ∈ Register.argBank.zip values, s.regs arg.1 = arg.2) →
    w.call (label callee) s (Answers result s)

/-! ## Settings -/

/-- The world of a function body, and the part of the stack that belongs to it. -/
structure Setting where
  world : World
  ctx : Context
  /-- The symbols of functions. -/
  label : String → Label
  /-- Bytes that a callee may need. -/
  room : Nat
  /-- Bytes from the stack pointer to the frame pointer. -/
  extent : Nat
  /-- How far below the frame pointer bytes may change. -/
  bound : Nat
  typed : ctx.Typed
  serves : world.Serves ctx label room
  extent_le : extent ≤ bound
  bound_lt : bound < 2 ^ 64

namespace Setting

def saveRoom : Nat := 64

structure Ready (S : Setting) (s : State) : Prop where
  aligned : s.StackAligned
  pointer : s.regs .stackPointer = s.regs .framePointer - BitVec.ofNat 64 S.extent
  bound : S.bound = (s.regs .framePointer).toNat
  room : S.extent + saveRoom + S.room ≤ S.bound

structure Before (S : Setting) (f : Frame) (calls : Bool) (s : State) : Prop where
  agrees : S.ctx.Agrees f S.bound s
  position : f.position ≤ S.extent
  ready : calls = true → S.Ready s

structure After (S : Setting) (τ : Session) : Prop where
  peak : ∀ {g gs}, τ.frames = g :: gs → g.highWater ≤ S.extent
  texts : S.ctx.Texts S.world τ.data
  label : τ.options.functionLabel = S.label

variable {S : Setting}

theorem After.of_advances {R : Frame → Frame → Prop} {σ τ : Session} (h : S.After τ)
    (hστ : Session.Advances R σ τ) (hR : ∀ {f g}, R f g → f.highWater ≤ g.highWater) :
    S.After σ where
  peak := fun hf =>
    have ⟨_, hg, hfg⟩ := hστ.frames hf
    Nat.le_trans (hR hfg) (h.peak hg)
  texts := Context.Texts.restrict h.texts hστ.texts
  label := hστ.options ▸ h.label

theorem Before.of_only {f g : Frame} {calls calls' : Bool} {s t : State} {regs : Register → Prop}
    (h : S.Before f calls s) (hfg : f.Within g) (hposition : g.position ≤ S.extent)
    (hcalls : calls' = true → calls = true) (hfp : ¬ regs .framePointer)
    (hsp : ¬ regs .stackPointer)
    (honly : ChangesOnly regs (Scratch (s.regs .framePointer) f.position S.bound) s t) :
    S.Before g calls' t where
  agrees := h.agrees.of_only hfg
    (Nat.lt_of_le_of_lt (Nat.le_trans h.position S.extent_le) S.bound_lt) hfp honly
  position := hposition
  ready := fun hc => by
    have hready := h.ready (hcalls hc)
    refine ⟨?_, ?_, ?_, hready.room⟩
    · rw [State.StackAligned, honly.reg _ hsp]
      exact hready.aligned
    · rw [honly.reg _ hsp, honly.reg _ hfp]
      exact hready.pointer
    · rw [honly.reg _ hfp]
      exact hready.bound

end Setting

end ArmBackend
