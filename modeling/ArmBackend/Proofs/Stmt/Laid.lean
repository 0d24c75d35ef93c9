import ArmBackend.Proofs.Expr.Call
import ArmBackend.Proofs.Stmt.Exec
import Mathlib.Data.List.Nodup

/-!
# Variables in their slots

How a machine state stands for the variables in scope between two statements: no temporary is live, and
each name has a slot of its own.
-/

namespace ArmBackend

namespace Frame

/-- No temporary is live, and the live variables are those that have been named. -/
structure Settled (f : Frame) : Prop where
  valid : f.Valid
  quiet : f.temporaries = []
  named : f.locals = f.symbols.map Prod.snd

namespace Settled

variable {f g : Frame}

theorem empty : Settled {} := ⟨.empty, rfl, rfl⟩

theorem of_rests (h : Settled f) (hfg : Rests f g) : Settled g where
  valid := h.valid.of_rests hfg
  quiet := hfg.temporaries.trans h.quiet
  named := by rw [hfg.locals, hfg.symbols, h.named]

theorem pushLoop (h : Settled f) (id : Nat) : Settled (f.pushLoop id) :=
  ⟨h.valid.pushLoop id, h.quiet, h.named⟩

theorem addVariable (h : Settled f) {ty : Ty} {name : String} {slot : Slot}
    (hrun : (Frame.addVariable ty name).run f = (.ok slot, g)) :
    Settled g ∧ slot.ty = ty ∧ g.symbols = (name, slot) :: f.symbols ∧ f.position ≤ g.position := by
  have hvalid := h.valid.addVariable hrun
  obtain ⟨hempty, hsize, rfl, rfl⟩ := addVariable_ok hrun
  refine ⟨⟨hvalid, hempty, ?_⟩, rfl, rfl, Nat.le_add_right _ _⟩
  exact congrArg (List.cons _) h.named

theorem reserveTemp (h : Settled f) {ty : Ty} {res : Reservation}
    (hrun : (Frame.reserveTemp ty).run f = (.ok res, g)) : res = .ofReg ty .indirectResult := by
  have hlive : ∀ reg, f.liveRegs.contains reg = false := fun reg => by
    have hregs : f.tempRegs = [] := by rw [tempRegs, h.quiet, List.filterMap_nil]
    by_contra hne
    have hmem := (h.valid.live reg).mp (by simpa using hne)
    rw [hregs] at hmem
    exact absurd hmem List.not_mem_nil
  have hfree : f.liveRegs.firstFree? Register.tempBank = some .indirectResult := by
    rw [RegSet.firstFree?, Register.tempBank, List.find?_cons, hlive]
    rfl
  have hstorable : ty.storable = true := by
    simpa [Ty.storable] using (reserveTemp_ok hrun).1
  simp only [Frame.reserveTemp, hstorable, StepM.run_bind, StepM.run_get, if_true, hfree] at hrun
  cases hrun
  rfl

variable {name name' : String} {slot slot' : Slot}

theorem mem_locals (h : Settled f) (hlookup : f.symbols.lookup name = some slot) :
    slot ∈ f.locals := by
  rw [h.named]
  exact List.mem_map_of_mem (mem_symbols hlookup)

theorem bounds (h : Settled f) (hlookup : f.symbols.lookup name = some slot) :
    0 < slot.ty.size ∧ slot.ty.size ≤ slot.offset ∧ slot.offset ≤ f.position :=
  h.valid.stacked.bounds slot (mem_slots_of_local (h.mem_locals hlookup))

theorem apart (h : Settled f) (hlookup : f.symbols.lookup name = some slot)
    (hlookup' : f.symbols.lookup name' = some slot') (hne : name ≠ name') :
    slot.offset + slot'.ty.size ≤ slot'.offset ∨ slot'.offset + slot.ty.size ≤ slot.offset := by
  have hslots : f.slots = f.locals := by rw [slots, h.quiet]; rfl
  have hmem := mem_slots_of_local (h.mem_locals hlookup)
  have hmem' := mem_slots_of_local (h.mem_locals hlookup')
  refine (h.valid.stacked.disjoint hmem hmem').resolve_left fun heq => ?_
  have hpairwise := h.valid.stacked.pairwise
  rw [hslots, h.named] at hpairwise
  have hnodup : (f.symbols.map Prod.snd).Nodup := by
    refine hpairwise.imp_of_mem fun {a b} ha _ hle hab => ?_
    have hsize := (h.valid.stacked.bounds a (by rw [hslots, h.named]; exact ha)).1
    rw [hab] at hle hsize
    omega
  subst heq
  have hpair := List.inj_on_of_nodup_map hnodup (mem_symbols hlookup) (mem_symbols hlookup') rfl
  exact hne (Prod.mk.inj hpair).1

end Settled

end Frame

/-! ## Environments -/

namespace Env

/-- Every variable has a slot of its type, which holds the variable's value if it has one. -/
def Laid (env : Env) (f : Frame) (s : State) : Prop :=
  ∀ name ty value, env name = some (ty, value) →
    ∃ slot, f.symbols.lookup name = some slot ∧ slot.ty = ty ∧
      ∀ v, value = some v → s.read slot.reservation = v

variable {env : Env} {f g : Frame} {s t : State} {ctx : Context}

theorem context_value {name : String} {ty : Ty} {v : Word}
    (h : (env.context ctx).value name ty = some v) : env name = some (ty, some v) := by
  obtain ⟨⟨ty', value⟩, hvar, hif⟩ := Option.bind_eq_some_iff.mp h
  split at hif
  case isTrue hty =>
    obtain rfl : value = some v := hif
    obtain rfl : ty' = ty := hty
    exact hvar
  case isFalse => cases hif

namespace Laid

theorem empty (f : Frame) (s : State) : Laid (fun _ => none) f s := nofun

theorem of_symbols (h : env.Laid f s) (hfg : g.symbols = f.symbols) : env.Laid g s := by
  intro name ty value hvar
  rw [hfg]
  exact h _ _ _ hvar

theorem typed (h : env.Laid f s) : (env.context ctx).Typed where
  value := fun {name ty v} hv => by
    obtain ⟨slot, -, rfl, hread⟩ := h _ _ _ (context_value hv)
    rw [← hread v rfl]
    exact slot.reservation.keep_read s
  load := nofun

theorem agrees (h : env.Laid f s) (hf : f.Settled) (bound : Nat) :
    (env.context ctx).Agrees f bound s where
  value := fun {name ty v} hv => by
    obtain ⟨slot, hlookup, -, hread⟩ := h _ _ _ (context_value hv)
    obtain ⟨hsize, hle, hposition⟩ := hf.bounds hlookup
    exact ⟨slot, hlookup, hsize, hle, hposition, hread v rfl⟩
  address := nofun
  load := nofun

theorem of_only (h : env.Laid f s) (hf : f.Settled) (hlt : f.position < 2 ^ 64) {bound : Nat}
    {regs : Register → Prop} (hfp : ¬ regs .framePointer)
    (honly : ChangesOnly regs (Scratch (s.regs .framePointer) f.position bound) s t) :
    env.Laid f t := by
  intro name ty value hvar
  obtain ⟨slot, hlookup, hty, hread⟩ := h _ _ _ hvar
  obtain ⟨hsize, hle, hposition⟩ := hf.bounds hlookup
  refine ⟨slot, hlookup, hty, fun v hv => ?_⟩
  refine (honly.read_eq hfp (fun _ hreg => by cases hreg) fun a ha hmem => ?_).trans (hread v hv)
  have := (Slot.covers_iff hsize hle (by omega)).mp ha
  exact absurd hmem.1 (by omega)

theorem declare (h : env.Laid f s) {name : String} {slot : Slot}
    (hg : g.symbols = (name, slot) :: f.symbols) : (env.declare slot.ty name).Laid g s := by
  intro name' ty value hvar
  rw [Env.declare, Function.update_apply] at hvar
  rw [hg, List.lookup_cons]
  split at hvar
  case isTrue heq =>
    cases hvar
    rw [heq, beq_self_eq_true]
    exact ⟨slot, rfl, rfl, nofun⟩
  case isFalse hne =>
    rw [beq_false_of_ne hne]
    exact h _ _ _ hvar

theorem define (h : env.Laid f s) (hf : f.Settled) (hlt : f.position < 2 ^ 64) {name : String}
    {slot : Slot} (hlookup : f.symbols.lookup name = some slot) {v : Word} {bound : Nat}
    {regs : Register → Prop} (hfp : ¬ regs .framePointer)
    (hread : t.read slot.reservation = slot.ty.width.low v)
    (honly : ChangesOnly regs (fun a => slot.reservation.Covers (s.regs .framePointer) a ∨
      Scratch (s.regs .framePointer) f.position bound a) s t) :
    (env.define slot.ty name v).Laid f t := by
  intro name' ty value hvar
  rw [Env.define, Function.update_apply] at hvar
  split at hvar
  case isTrue heq =>
    cases hvar
    rw [heq]
    exact ⟨slot, hlookup, rfl, fun w hw => hread.trans (Option.some.inj hw)⟩
  case isFalse hne =>
    obtain ⟨slot', hlookup', hty, hread'⟩ := h _ _ _ hvar
    obtain ⟨hsize, hle, hposition⟩ := hf.bounds hlookup
    obtain ⟨hsize', hle', hposition'⟩ := hf.bounds hlookup'
    refine ⟨slot', hlookup', hty, fun w hw => ?_⟩
    refine (honly.read_eq hfp (fun _ hreg => by cases hreg) fun a ha hmem => ?_).trans (hread' w hw)
    have hcovers' := (Slot.covers_iff hsize' hle' (by omega)).mp ha
    rcases hmem with hmem | hmem
    · have hcovers := (Slot.covers_iff hsize hle (by omega)).mp hmem
      rcases hf.apart hlookup hlookup' (Ne.symm hne) with hlt' | hlt' <;> omega
    · exact absurd hmem.1 (by omega)

end Laid

end Env

end ArmBackend
