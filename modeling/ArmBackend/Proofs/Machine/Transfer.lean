import ArmBackend.Assembly.Transfer
import ArmBackend.Proofs.Machine.Exec

/-!
# What moves ensure

Constants and addresses are exact, and a load or store of a slot reaches exactly that slot, whatever
its distance from the frame pointer.
-/

namespace ArmBackend

/-! ## Constants -/

namespace Word

def lowBits (bits : Word) (n : Nat) : Word := (bits.setWidth n).setWidth 64

theorem lowBits_all (bits : Word) : bits.lowBits 64 = bits := by simp [lowBits]

theorem ofNat_chunk_zero (bits : Word) : BitVec.ofNat 64 (bits.chunk 0) = bits.lowBits 16 := by
  apply BitVec.eq_of_getLsbD_eq
  intro i hi
  simp only [chunk, lowBits, BitVec.ofNat_toNat, BitVec.getLsbD_setWidth,
    BitVec.getLsbD_extractLsb', Nat.zero_add]

theorem insert_chunk (bits : Word) (shift : Nat) :
    (bits.lowBits shift &&& ~~~(0xffff#64 <<< shift)) |||
      BitVec.ofNat 64 (bits.chunk shift) <<< shift = bits.lowBits (shift + 16) := by
  have hmask : 0xffff#64 = (BitVec.allOnes 16).setWidth 64 := by decide
  apply BitVec.eq_of_getLsbD_eq
  intro i hi
  simp only [hmask, chunk, lowBits, BitVec.ofNat_toNat, BitVec.getLsbD_or, BitVec.getLsbD_and,
    BitVec.getLsbD_not, BitVec.getLsbD_shiftLeft, BitVec.getLsbD_setWidth,
    BitVec.getLsbD_extractLsb', BitVec.getLsbD_allOnes]
  grind

theorem lowBits_of_chunk_eq_zero (bits : Word) {shift : Nat} (h : bits.chunk shift = 0) :
    bits.lowBits (shift + 16) = bits.lowBits shift := by
  have hbit : ∀ i, (bits.extractLsb' shift 16).getLsbD i = false := by
    intro i
    rw [BitVec.eq_of_toNat_eq (x := bits.extractLsb' shift 16) (y := 0#16) h]
    simp
  apply BitVec.eq_of_getLsbD_eq
  intro i hi
  have := hbit (i - shift)
  simp only [BitVec.getLsbD_extractLsb', lowBits, BitVec.getLsbD_setWidth] at this ⊢
  grind

end Word

namespace Code

variable {w : World}

def insertChunk (dst : Register) (bits : Word) (shift : Nat) : Code :=
  if bits.chunk shift = 0 then [] else ofInstrs [.movk dst (bits.chunk shift) shift]

theorem constant_eq (dst : Register) (bits : Word) :
    constant dst bits = ofInstrs [.movImm dst (bits.chunk 0)] ++
      (insertChunk dst bits 16 ++ (insertChunk dst bits 32 ++ insertChunk dst bits 48)) := by
  simp only [constant, insertChunk, ofInstrs, List.filterMap_cons, List.filterMap_nil]
  by_cases h16 : bits.chunk 16 = 0 <;> by_cases h32 : bits.chunk 32 = 0 <;>
    by_cases h48 : bits.chunk 48 = 0 <;> simp [h16, h32, h48]

theorem ensures_insertChunk (dst : Register) (bits : Word) (shift : Nat) (s : State)
    (Q : State → Prop) :
    Ensures w (insertChunk dst bits shift) (s.set dst (bits.lowBits shift)) Q ↔
      Q (s.set dst (bits.lowBits (shift + 16))) := by
  rw [insertChunk]
  split
  case isTrue h => rw [ensures_nil, bits.lowBits_of_chunk_eq_zero h]
  case isFalse =>
    simp only [ensures_ofInstrs_cons, ensures_ofInstrs_nil, Instr.Ensures, Instr.exec,
      Option.some.injEq, exists_eq_left', State.set_regs_self, State.set_set,
      Word.insert_chunk]

@[simp] theorem ensures_constant (dst : Register) (bits : Word) (s : State) (Q : State → Prop) :
    Ensures w (constant dst bits) s Q ↔ Q (s.set dst bits) := by
  simp only [constant_eq, ensures_append, ensures_ofInstrs_cons, ensures_ofInstrs_nil,
    Instr.Ensures, Instr.exec, Option.some.injEq, exists_eq_left', Word.ofNat_chunk_zero,
    ensures_insertChunk, Nat.reduceAdd, Word.lowBits_all]

/-! ## Addresses -/

theorem ensures_frameAddress {dst : Register} (h : dst ≠ .framePointer) (offset : Int) (s : State)
    (Q : State → Prop) :
    Ensures w (frameAddress dst offset) s Q ↔
      Q (s.set dst (s.regs .framePointer - BitVec.ofInt 64 offset)) := by
  simp only [frameAddress]
  split
  · simp only [ensures_ofInstrs_cons, ensures_ofInstrs_nil, Instr.Ensures, Instr.exec,
      Option.some.injEq, exists_eq_left', BitVec.ofNat_toNat, BitVec.setWidth_eq]
  · simp [Instr.Ensures, Instr.exec, Arith.eval, State.set_regs, h.symm]

theorem clear_add_keep (a mask : Word) : (a &&& ~~~mask) + (a &&& mask) = a := by
  rw [BitVec.add_eq_or_of_and_eq_zero]
  · ext i
    simp only [BitVec.getElem_or, BitVec.getElem_and, BitVec.getElem_not]
    grind
  · ext i
    simp only [BitVec.getElem_and, BitVec.getElem_not, BitVec.getElem_zero]
    grind

theorem ensures_labelAddress (dst : Register) (label : Label) (s : State) (Q : State → Prop) :
    Ensures w (labelAddress dst label) s Q ↔ Q (s.set dst (w.symbol label)) := by
  simp only [labelAddress, ensures_ofInstrs_cons, ensures_ofInstrs_nil, Instr.Ensures, Instr.exec,
    Option.some.injEq, exists_eq_left', State.set_regs_self, State.set_set, clear_add_keep]

/-! ## Loads and stores of slots -/

theorem ensures_loadSlot {dst : Register} (h : dst ≠ .framePointer) (offset : Int) (ty : Ty)
    (s : State) (Q : State → Prop) :
    Ensures w (loadSlot dst offset ty) s Q ↔
      Q (s.set dst (s.load ty.width (s.regs .framePointer - BitVec.ofInt 64 offset))) := by
  simp only [loadSlot, slotAddress, if_neg h]
  split
  · simp [Instr.Ensures, Instr.exec, Address.eval]
  · simp [Instr.Ensures, Instr.exec, Address.eval, ensures_frameAddress h]

def storeVia (src : Register) : Register := if src = .operand then .staging else .operand

theorem storeVia_ne (src : Register) : src ≠ storeVia src := by
  rw [storeVia]
  split
  case isTrue h => rw [h]; decide
  case isFalse h => exact h

theorem storeVia_ne_framePointer (src : Register) : storeVia src ≠ .framePointer := by
  rw [storeVia]
  split <;> decide

theorem storeVia_scratch (src : Register) : storeVia src = .staging ∨ storeVia src = .operand := by
  rw [storeVia]
  split <;> simp

theorem storeSlot_eq (src : Register) (offset : Int) (ty : Ty) :
    storeSlot src offset ty = (slotAddress (storeVia src) offset).1 ++
      ofInstrs [.store ty.width src (slotAddress (storeVia src) offset).2] := rfl

theorem ensures_storeSlot (src : Register) (offset : Int) (ty : Ty) (s : State) :
    ∃ v, ∀ Q, Ensures w (storeSlot src offset ty) s Q ↔
      Q ((s.set (storeVia src) v).store ty.width
        (s.regs .framePointer - BitVec.ofInt 64 offset) (s.regs src)) := by
  simp only [storeSlot_eq, slotAddress, if_neg (storeVia_ne_framePointer src)]
  split
  · refine ⟨s.regs (storeVia src), fun Q => ?_⟩
    simp only [List.nil_append, ensures_ofInstrs_cons, ensures_ofInstrs_nil, Instr.Ensures,
      Instr.exec, Address.eval, Option.some.injEq, exists_eq_left', State.set_eq_self]
  · refine ⟨s.regs .framePointer - BitVec.ofInt 64 offset, fun Q => ?_⟩
    simp only [ensures_append, ensures_frameAddress (storeVia_ne_framePointer src),
      ensures_ofInstrs_cons, ensures_ofInstrs_nil, Instr.Ensures, Instr.exec, Address.eval,
      Option.some.injEq, exists_eq_left', State.set_regs_self,
      State.set_regs_ne _ _ (storeVia_ne src)]

end Code

/-! ## Copies -/

namespace State

theorem low_load (s : State) (width : Width) (a : Word) :
    width.low (s.load width a) = s.load width a := by
  cases width <;> simp [Width.low, load]

def read (s : State) (res : Reservation) : Word :=
  match res.location with
  | .reg reg => s.regs reg
  | .slot offset => s.load res.ty.width (s.regs .framePointer - BitVec.ofInt 64 offset)
  | .unassigned => 0

end State

namespace Reservation

/-- What the reservation keeps of a value that is put into it. -/
def keep (res : Reservation) (v : Word) : Word :=
  match res.location with
  | .slot _ => res.ty.width.low v
  | _ => v

/-- The addresses of the bytes of a slot. -/
def Covers (fp : Word) (res : Reservation) (a : Word) : Prop :=
  match res.location with
  | .slot offset => (a - (fp - BitVec.ofInt 64 offset)).toNat < res.ty.width.bytes
  | _ => False

def Spoils (res : Reservation) (reg : Register) : Prop :=
  match res.location with
  | .reg dst => reg = dst
  | .slot _ => reg = .staging ∨ reg = .operand
  | .unassigned => False

theorem keep_read (s : State) (res : Reservation) : res.keep (s.read res) = s.read res := by
  obtain ⟨location, ty⟩ := res
  cases location with
  | slot offset => exact s.low_load ty.width _
  | reg reg => rfl
  | unassigned => rfl

end Reservation

namespace Code

variable {w : World} {s : State}

/-- The outcome of putting `v` into a reservation: the reservation holds what it keeps of `v`, and
nothing else has changed apart from the registers that it spoils. -/
structure Put (target : Reservation) (v : Word) (s t : State) : Prop where
  read : t.read target = target.keep v
  only : ChangesOnly target.Spoils (target.Covers (s.regs .framePointer)) s t

theorem ensures_storeSlot_put (src : Register) (offset : Int) (ty : Ty) :
    Ensures w (storeSlot src offset ty) s (Put ⟨.slot offset, ty⟩ (s.regs src) s) := by
  obtain ⟨v, hv⟩ := ensures_storeSlot (w := w) src offset ty s
  have hfp := State.set_regs_ne s v (storeVia_ne_framePointer src).symm
  rw [hv]
  refine ⟨?_, ?_⟩
  · simp only [State.read, State.store_regs, hfp, State.load_store, Reservation.keep]
  · have hset : ChangesOnly (Reservation.Spoils ⟨.slot offset, ty⟩)
        (Reservation.Covers (s.regs .framePointer) ⟨.slot offset, ty⟩) s
        (s.set (storeVia src) v) := .set (storeVia_scratch src)
    exact hset.trans (.store fun b hb => hb)

theorem ensures_loadSlot_put {dst : Register} (h : dst ≠ .framePointer) (offset : Int)
    (ty ty' : Ty) :
    Ensures w (loadSlot dst offset ty) s (Put ⟨.reg dst, ty'⟩ (s.read ⟨.slot offset, ty⟩) s) := by
  rw [ensures_loadSlot h]
  exact ⟨by simp only [State.read, State.set_regs_self, Reservation.keep], .set rfl⟩

theorem ensures_move_put (dst src : Register) (ty : Ty) :
    Ensures w (move dst src) s (Put ⟨.reg dst, ty⟩ (s.regs src) s) := by
  rw [move]
  split
  case isTrue h => exact ⟨by simp only [State.read, Reservation.keep, h], .refl _ _ s⟩
  case isFalse =>
    exact ⟨_, rfl, by simp only [State.read, State.set_regs_self, Reservation.keep], .set rfl⟩

/-- Copying between different places puts the value of the source into the target. -/
theorem ensures_copy {source target : Reservation} {code : Code}
    (h : copy source target = .ok code) (hfp : target.location ≠ .reg .framePointer)
    (hne : ∀ offset, source.location = .slot offset → target.location ≠ .slot offset) :
    Ensures w code s (Put target (s.read source) s) := by
  obtain ⟨source, sourceTy⟩ := source
  obtain ⟨target, targetTy⟩ := target
  simp only [copy, Reservation.sameStorage, beq_iff_eq] at h
  split at h
  case isTrue heq =>
    cases h
    subst heq
    cases source with
    | unassigned => exact ⟨rfl, .refl _ _ s⟩
    | reg reg => exact ⟨rfl, .refl _ _ s⟩
    | slot offset => exact absurd rfl (hne offset rfl)
  case isFalse =>
    cases source <;> cases target <;> cases h
    case reg.reg src dst _ => exact ensures_move_put dst src targetTy
    case reg.slot src offset _ => exact ensures_storeSlot_put src offset targetTy
    case slot.reg offset dst _ =>
      exact ensures_loadSlot_put (by simpa using hfp) offset sourceTy targetTy
    case slot.slot src dst _ =>
      rw [ensures_append, ensures_loadSlot (by decide)]
      refine (ensures_storeSlot_put .staging dst targetTy).mono fun t ht => ?_
      rw [State.set_regs_self] at ht
      have hset : ChangesOnly (Reservation.Spoils ⟨.slot dst, targetTy⟩)
          (Reservation.Covers (s.regs .framePointer) ⟨.slot dst, targetTy⟩) s
          (s.set .staging (s.read ⟨.slot src, sourceTy⟩)) := .set (Or.inl rfl)
      exact ⟨ht.read, hset.trans ht.only⟩

theorem ensures_putConstant {target : Reservation} {bits : Word} {code : Code}
    (h : putConstant target bits = .ok code) : Ensures w code s (Put target bits s) := by
  obtain ⟨target, ty⟩ := target
  cases target with
  | unassigned => cases h
  | reg dst =>
    cases h
    rw [ensures_constant]
    exact ⟨by simp only [State.read, State.set_regs_self, Reservation.keep], .set rfl⟩
  | slot offset =>
    cases h
    rw [ensures_append, ensures_constant]
    refine (ensures_storeSlot_put .staging offset ty).mono fun t ht => ?_
    rw [State.set_regs_self] at ht
    have hset : ChangesOnly (Reservation.Spoils ⟨.slot offset, ty⟩)
        (Reservation.Covers (s.regs .framePointer) ⟨.slot offset, ty⟩) s (s.set .staging bits) :=
      .set (Or.inl rfl)
    exact ⟨ht.read, hset.trans ht.only⟩

end Code

end ArmBackend
