import ArmBackend.Assembly.Saves
import ArmBackend.Proofs.Machine.Exec

/-!
# What saving registers ensures

Registers that are pushed before a piece of code and popped after it come back as they were, if the
code leaves the stack as it found it.
-/

namespace ArmBackend

/-- `t` is `s` with the stack pointer `size` bytes further down. Only these bytes may differ, which are
counted upward from the new stack pointer, also where the address space ends on the way. -/
structure Sunk (size : Nat) (s t : State) : Prop where
  pointer : t.regs .stackPointer = s.regs .stackPointer - .ofNat 64 size
  reg : ∀ r, r ≠ .stackPointer → t.regs r = s.regs r
  byte : ∀ a, size ≤ (a - t.regs .stackPointer).toNat → t.mem a = s.mem a

structure Revisits (size : Nat) (t u : State) : Prop where
  pointer : u.regs .stackPointer = t.regs .stackPointer
  byte : ∀ a, (a - t.regs .stackPointer).toNat < size → u.mem a = t.mem a

structure Deeper (size : Nat) (s t : State) : Prop where
  pointer : t.regs .stackPointer = s.regs .stackPointer - .ofNat 64 size
  reg : ∀ r, r ≠ .stackPointer → t.regs r = s.regs r
  byte : ∀ a, (s.regs .stackPointer).toNat ≤ a.toNat → t.mem a = s.mem a

/-- `t` has the stack pointer of `s` and the same bytes at it and above. -/
structure Returns (s t : State) : Prop where
  pointer : t.regs .stackPointer = s.regs .stackPointer
  byte : ∀ a, (s.regs .stackPointer).toNat ≤ a.toNat → t.mem a = s.mem a

structure ReturnsWithin (size : Nat) (s t : State) : Prop where
  pointer : t.regs .stackPointer = s.regs .stackPointer
  byte : ∀ a, (s.regs .stackPointer).toNat ≤ a.toNat →
    a.toNat < (s.regs .stackPointer).toNat + size → t.mem a = s.mem a

theorem Returns.within {s t : State} (h : Returns s t) (size : Nat) : ReturnsWithin size s t :=
  ⟨h.pointer, fun a ha _ => h.byte a ha⟩

/-- `t` is `u` with the registers `regs` and the stack pointer as in `s`. -/
structure Restores (regs : List Register) (s u t : State) : Prop where
  pointer : t.regs .stackPointer = s.regs .stackPointer
  saved : ∀ r ∈ regs, t.regs r = s.regs r
  other : ∀ r, r ∉ regs → r ≠ .stackPointer → t.regs r = u.regs r
  mem : t.mem = u.mem

namespace State

variable {s : State}

theorem pushed_pointer_toNat (h : 16 ≤ (s.regs .stackPointer).toNat) :
    (s.pushed.regs .stackPointer).toNat + 16 = (s.regs .stackPointer).toNat := by
  have := (s.regs .stackPointer).isLt
  simp only [pushed, set_regs_self, BitVec.toNat_sub, BitVec.toNat_ofNat]
  omega

theorem pushed_popped_pointer (s : State) :
    s.pushed.regs .stackPointer + 16#64 = s.regs .stackPointer := by
  rw [pushed, set_regs_self, BitVec.sub_add_cancel]

theorem pushed_aligned (haligned : s.StackAligned) : s.pushed.StackAligned := by
  have := (s.regs .stackPointer).isLt
  rw [StackAligned] at haligned
  simp only [StackAligned, pushed, set_regs_self, BitVec.toNat_sub, BitVec.toNat_ofNat]
  omega

def push (s : State) (v : Word) : State := s.pushed.store .word (s.pushed.regs .stackPointer) v

def pushPair (s : State) (first second : Word) : State :=
  (s.push first).store .word (s.pushed.regs .stackPointer + 8#64) second

@[simp] theorem push_regs (s : State) (v : Word) : (s.push v).regs = s.pushed.regs := rfl

@[simp] theorem pushPair_regs (s : State) (first second : Word) :
    (s.pushPair first second).regs = s.pushed.regs := rfl

theorem upper_half {p a : Word} (h : (a - (p + 8#64)).toNat < 8) : (a - p).toNat < 16 := by
  have hp := p.isLt
  have ha := a.isLt
  simp only [BitVec.toNat_sub, BitVec.toNat_add, BitVec.toNat_ofNat] at h ⊢
  omega

theorem lower_half {p a : Word} (h : (a - p).toNat < 8) :
    (a - p).toNat < 16 ∧ ¬ (a - (p + 8#64)).toNat < 8 := by
  have hp := p.isLt
  have ha := a.isLt
  simp only [BitVec.toNat_sub, BitVec.toNat_add, BitVec.toNat_ofNat] at h ⊢
  omega

theorem push_sunk (s : State) (v : Word) : Sunk 16 s (s.push v) where
  pointer := by simp [pushed]
  reg _ hr := set_regs_ne s _ hr
  byte a ha := if_neg fun hb => absurd (Nat.lt_of_lt_of_le hb (by decide)) (Nat.not_lt.mpr ha)

theorem pushPair_sunk (s : State) (first second : Word) : Sunk 16 s (s.pushPair first second) where
  pointer := by simp [pushed]
  reg _ hr := set_regs_ne s _ hr
  byte a ha := (if_neg fun hb => Nat.not_lt.mpr ha (upper_half hb)).trans ((s.push_sunk first).byte a ha)

theorem load_push {v : Word} {t : State} (ht : Revisits 16 (s.push v) t) :
    t.load .word (t.regs .stackPointer) = v := by
  rw [ht.pointer]
  refine (load_congr fun b hb => ht.byte b ?_).trans (load_store s.pushed .word _ v)
  exact Nat.lt_of_lt_of_le hb (by decide)

theorem load_record {first second : Word} {t : State}
    (h : ∀ a, (a - s.pushed.regs .stackPointer).toNat < 16 → t.mem a = (s.pushPair first second).mem a) :
    t.load .word (s.pushed.regs .stackPointer) = first ∧
      t.load .word (s.pushed.regs .stackPointer + 8#64) = second := by
  constructor
  · refine (load_congr fun a ha => ?_).trans (load_store s.pushed .word _ first)
    obtain ⟨hnear, hfar⟩ := lower_half ha
    exact (h a hnear).trans (if_neg hfar)
  · exact (load_congr fun a ha => h a (upper_half ha)).trans (load_store (s.push first) .word _ second)

theorem load_pushPair {first second : Word} {t : State} (ht : Revisits 16 (s.pushPair first second) t) :
    t.load .word (t.regs .stackPointer) = first ∧
      t.load .word (t.regs .stackPointer + 8#64) = second := by
  rw [ht.pointer, pushPair_regs]
  exact load_record ht.byte

end State

namespace Sunk

variable {m n size : Nat} {s t u : State}

theorem refl (s : State) : Sunk 0 s s := ⟨(BitVec.sub_zero _).symm, fun _ _ => rfl, fun _ _ => rfl⟩

theorem height (h : Sunk size s t) {a : Word} (hfits : (a - s.regs .stackPointer).toNat + size < 2 ^ 64) :
    (a - t.regs .stackPointer).toNat = (a - s.regs .stackPointer).toNat + size := by
  have ha := a.isLt
  have hs := (s.regs .stackPointer).isLt
  rw [h.pointer]
  simp only [BitVec.toNat_sub, BitVec.toNat_ofNat] at hfits ⊢
  omega

theorem trans (h : Sunk m s t) (h' : Sunk n t u) (hfits : m + n < 2 ^ 64) : Sunk (m + n) s u where
  pointer := by
    rw [h'.pointer, h.pointer, BitVec.ofNat_add]
    generalize BitVec.ofNat 64 m = a
    generalize BitVec.ofNat 64 n = b
    rw [BitVec.sub_sub]
  reg r hr := (h'.reg r hr).trans (h.reg r hr)
  byte a ha := by
    have hbelow : m ≤ (a - t.regs .stackPointer).toNat := by
      have ha' := a.isLt
      have ht := (t.regs .stackPointer).isLt
      rw [h'.pointer] at ha
      simp only [BitVec.toNat_sub, BitVec.toNat_ofNat] at ha ⊢
      omega
    exact (h'.byte a (by omega)).trans (h.byte a hbelow)

theorem revisits (h : Sunk n s t) (h' : Revisits (m + n) t u) (hfits : m + n < 2 ^ 64) {v : State}
    (hpointer : v.regs .stackPointer = s.regs .stackPointer) (hmem : v.mem = u.mem) : Revisits m s v where
  pointer := hpointer
  byte a ha := by
    have hheight := h.height (a := a) (by omega)
    rw [hmem, h'.byte a (by omega), h.byte a (by omega)]

theorem deeper (h : Sunk size s t) (hroom : size ≤ (s.regs .stackPointer).toNat) : Deeper size s t where
  pointer := h.pointer
  reg := h.reg
  byte a ha := by
    have ha' := a.isLt
    refine h.byte a ?_
    rw [h.pointer]
    simp only [BitVec.toNat_sub, BitVec.toNat_ofNat]
    omega

end Sunk

theorem ReturnsWithin.revisits {size : Nat} {s t : State} (h : ReturnsWithin size s t)
    (hroom : (s.regs .stackPointer).toNat + size ≤ 2 ^ 64) : Revisits size s t where
  pointer := h.pointer
  byte a ha := by
    have ha' := a.isLt
    rw [BitVec.toNat_sub] at ha
    exact h.byte a (by omega) (by omega)

theorem State.pushPair_mem {s : State} {first second a : Word} (h : 16 ≤ (s.regs .stackPointer).toNat)
    (ha : (s.regs .stackPointer).toNat ≤ a.toNat) : (s.pushPair first second).mem a = s.mem a :=
  ((s.pushPair_sunk first second).deeper h).byte a ha

theorem Deeper.pointer_toNat {size : Nat} {s t : State} (h : Deeper size s t)
    (hsize : size ≤ (s.regs .stackPointer).toNat) :
    (t.regs .stackPointer).toNat + size = (s.regs .stackPointer).toNat := by
  have hlt := (s.regs .stackPointer).isLt
  rw [h.pointer, BitVec.toNat_sub, BitVec.toNat_ofNat]
  omega

namespace Restores

variable {regs : List Register} {reg first second : Register} {s t u : State}

theorem of_pop (hreg : .stackPointer ≠ reg) (hu : Revisits 16 (s.push (s.regs reg)) u) :
    Restores [reg] s u (u.popped.set reg (u.load .word (u.regs .stackPointer))) where
  pointer := by
    rw [State.set_regs_ne _ _ hreg, State.popped, State.set_regs_self, hu.pointer]
    exact State.pushed_popped_pointer s
  saved r hr := by
    obtain rfl := List.mem_singleton.mp hr
    rw [State.set_regs_self, State.load_push hu]
  other r hr hsp := by
    have hne : r ≠ reg := fun h => hr (List.mem_singleton.mpr h)
    rw [State.set_regs_ne _ _ hne, State.popped, State.set_regs_ne _ _ hsp]
  mem := rfl

theorem popPair (hregs : .stackPointer ∉ first :: second :: regs)
    (h : Restores regs (s.pushPair (s.regs first) (s.regs second)) u t)
    (ht : Revisits 16 (s.pushPair (s.regs first) (s.regs second)) t) :
    Restores (first :: second :: regs) s u
      ((t.popped.set first (t.load .word (t.regs .stackPointer))).set second
        (t.load .word (t.regs .stackPointer + 8#64))) := by
  have hfirst : .stackPointer ≠ first := fun h => hregs (h ▸ List.mem_cons_self)
  have hsecond : .stackPointer ≠ second := fun h =>
    hregs (h ▸ List.mem_cons_of_mem _ List.mem_cons_self)
  obtain ⟨hload₁, hload₂⟩ := State.load_pushPair ht
  refine ⟨?_, fun r hr => ?_, fun r hr hsp => ?_, h.mem⟩
  · rw [State.set_regs_ne _ _ hsecond, State.set_regs_ne _ _ hfirst, State.popped,
      State.set_regs_self, ht.pointer]
    exact State.pushed_popped_pointer s
  · rw [State.set_regs, hload₂]
    split
    case isTrue h => rw [h]
    case isFalse hne₂ =>
      rw [State.set_regs, hload₁]
      split
      case isTrue h => rw [h]
      case isFalse hne₁ =>
        have hmem : r ∈ regs := by simpa [hne₁, hne₂] using hr
        have hsp : r ≠ .stackPointer := fun h =>
          hregs (List.mem_cons_of_mem _ (List.mem_cons_of_mem _ (h ▸ hmem)))
        rw [State.popped, State.set_regs_ne _ _ hsp, h.saved r hmem, State.pushPair_regs,
          State.pushed, State.set_regs_ne _ _ hsp]
  · have hne₁ : r ≠ first := fun h => hr (h ▸ List.mem_cons_self)
    have hne₂ : r ≠ second := fun h => hr (h ▸ List.mem_cons_of_mem _ List.mem_cons_self)
    rw [State.set_regs_ne _ _ hne₂, State.set_regs_ne _ _ hne₁, State.popped,
      State.set_regs_ne _ _ hsp]
    exact h.other r (fun h => hr (List.mem_cons_of_mem _ (List.mem_cons_of_mem _ h))) hsp

end Restores

def saveSize (count : Nat) : Nat := saveSlotSize * ((count + 1) / 2)

theorem saveSize_one : saveSize 1 = 16 := rfl

theorem saveSize_succ_succ (count : Nat) : saveSize (count + 2) = 16 + saveSize count := by
  simp only [saveSize, saveSlotSize]
  omega

namespace Code

variable {w : World}

/-- Registers that are pushed come back when they are popped, if the stack pointer is back then and
the bytes that they were pushed to are the same. The stack is aligned all the way. -/
theorem maintains_saveRegs {regs : List Register} {s : State} (haligned : s.StackAligned)
    (hregs : .stackPointer ∉ regs) (hfits : saveSize regs.length < 2 ^ 64) :
    Maintains w State.StackAligned (saveRegs regs) s fun s₁ =>
      Sunk (saveSize regs.length) s s₁ ∧ s₁.StackAligned ∧
        ∀ t₁, Revisits (saveSize regs.length) s₁ t₁ →
          Maintains w State.StackAligned (restoreRegs regs) t₁ (Restores regs s t₁) := by
  induction regs using pushes.induct generalizing s with
  | case1 =>
    refine ⟨.refl s, haligned, fun t₁ ht₁ => ?_⟩
    exact ⟨ht₁.pointer, fun _ hreg => absurd hreg List.not_mem_nil, fun _ _ _ => rfl, rfl⟩
  | case2 reg =>
    rw [List.length_singleton, saveSize_one]
    have hreg : .stackPointer ≠ reg := fun h => hregs (h ▸ List.mem_cons_self)
    refine ⟨haligned, s.push (s.regs reg), if_pos haligned, s.push_sunk _, State.pushed_aligned haligned,
      fun t₁ ht₁ => ?_⟩
    have haligned₁ : t₁.StackAligned := by
      rw [State.StackAligned, ht₁.pointer]
      exact State.pushed_aligned haligned
    exact ⟨haligned₁, _, if_pos haligned₁, .of_pop hreg ht₁⟩
  | case3 first second regs ih =>
    rw [List.length_cons, List.length_cons, saveSize_succ_succ] at hfits ⊢
    have hpush := s.pushPair_sunk (s.regs first) (s.regs second)
    have haligned₁ : (s.pushPair (s.regs first) (s.regs second)).StackAligned :=
      State.pushed_aligned haligned
    have hrestore : restoreRegs (first :: second :: regs) =
        restoreRegs regs ++ ofInstrs [.popPair first second] := by
      simp [restoreRegs, pops, ofInstrs]
    refine ⟨haligned, s.pushPair (s.regs first) (s.regs second), if_pos haligned, ?_⟩
    refine (ih haligned₁ (fun h => hregs (List.mem_cons_of_mem _ (List.mem_cons_of_mem _ h)))
      (by omega)).mono (fun _ => id) fun s₁ hsaved => ?_
    obtain ⟨hsunk, hs₁, hback⟩ := hsaved
    refine ⟨hpush.trans hsunk hfits, hs₁, fun t₁ ht₁ => ?_⟩
    rw [hrestore, maintains_append]
    refine (hback t₁ ⟨ht₁.pointer, fun a ha => ht₁.byte a (by omega)⟩).mono (fun _ => id)
      fun t hrestores => ?_
    have hpair := hsunk.revisits ht₁ hfits hrestores.pointer hrestores.mem
    have haligned₂ : t.StackAligned := by rwa [State.StackAligned, hpair.pointer]
    exact ⟨haligned₂, _, if_pos haligned₂, hrestores.popPair hregs hpair⟩

theorem ensures_saveRegs {regs : List Register} {s : State} (haligned : s.StackAligned)
    (hregs : .stackPointer ∉ regs) (hroom : saveSize regs.length ≤ (s.regs .stackPointer).toNat) :
    Ensures w (saveRegs regs) s fun s₁ =>
      Deeper (saveSize regs.length) s s₁ ∧ s₁.StackAligned ∧
        ∀ t₁, ReturnsWithin (saveSize regs.length) s₁ t₁ →
          Ensures w (restoreRegs regs) t₁ (Restores regs s t₁) := by
  have hlt := (s.regs .stackPointer).isLt
  refine (maintains_saveRegs haligned hregs (Nat.lt_of_le_of_lt hroom hlt)).ensures.mono
    fun s₁ ⟨hsunk, hs₁, hback⟩ => ?_
  have hdeeper := hsunk.deeper hroom
  have hpointer := hdeeper.pointer_toNat hroom
  exact ⟨hdeeper, hs₁, fun t₁ ht₁ => (hback t₁ (ht₁.revisits (by omega))).ensures⟩

theorem ensures_saved {regs : List Register} {mid : Code} {s : State} {Q : State → Prop}
    (haligned : s.StackAligned) (hregs : .stackPointer ∉ regs)
    (hroom : saveSize regs.length ≤ (s.regs .stackPointer).toNat)
    (hmid : ∀ s₁, Deeper (saveSize regs.length) s s₁ → s₁.StackAligned →
      Ensures w mid s₁ fun t₁ => Returns s₁ t₁ ∧ ∀ t, Restores regs s t₁ t → Q t) :
    Ensures w (saveRegs regs ++ mid ++ restoreRegs regs) s Q := by
  simp only [ensures_append]
  refine (ensures_saveRegs haligned hregs hroom).mono fun s₁ hsaved => ?_
  obtain ⟨hdeeper, hs₁, hback⟩ := hsaved
  refine (hmid s₁ hdeeper hs₁).mono fun t₁ ht₁ => ?_
  obtain ⟨hreturns, hQ⟩ := ht₁
  exact (hback t₁ (hreturns.within _)).mono hQ

end Code

end ArmBackend
