import ArmBackend.Operator
import ArmBackend.Register
import ArmBackend.Word
import Mathlib.Algebra.Group.Nat.Defs
import Mathlib.Logic.Function.Basic

/-!
# Machine states

Registers, memory and condition flags, and what loads, stores and operators do to them. Addresses in
the frame of a function are described by how far they lie below its frame pointer.
-/

namespace ArmBackend

/-! ## Operators on words -/

/-- Two's complement, wrapping around. Division truncates, and a division by 0 yields 0. -/
def Arith.eval : Arith → Word → Word → Word
  | .add, a, b => a + b
  | .sub, a, b => a - b
  | .mul, a, b => a * b
  | .div, a, b => a.sdiv b
  | .bitAnd, a, b => a &&& b
  | .bitOr, a, b => a ||| b
  | .bitXor, a, b => a ^^^ b

/-- The signed comparison. -/
def Cond.eval : Cond → Word → Word → Bool
  | .eq, a, b => a == b
  | .ne, a, b => a != b
  | .lt, a, b => a.slt b
  | .gt, a, b => b.slt a
  | .le, a, b => a.sle b
  | .ge, a, b => b.sle a

/-! ## Flags -/

structure Flags where
  negative : Bool
  zero : Bool
  overflow : Bool
deriving DecidableEq

def Flags.compare (a b : Word) : Flags := ⟨(a - b).msb, a == b, a.ssubOverflow b⟩

namespace Cond

def holds : Cond → Flags → Bool
  | .eq, flags => flags.zero
  | .ne, flags => !flags.zero
  | .lt, flags => flags.negative != flags.overflow
  | .gt, flags => !flags.zero && flags.negative == flags.overflow
  | .le, flags => flags.zero || flags.negative != flags.overflow
  | .ge, flags => flags.negative == flags.overflow

theorem negative_ne_overflow (a b : Word) : ((a - b).msb != a.ssubOverflow b) = a.slt b := by
  have ha := a.toInt_lt
  have ha' := a.le_toInt
  have hb := b.toInt_lt
  have hb' := b.le_toInt
  simp only [BitVec.msb_eq_toInt, BitVec.toInt_sub, BitVec.ssubOverflow, BitVec.slt, Int.bmod_def]
  grind

theorem sle_eq_or (a b : Word) : a.sle b = (a == b || a.slt b) := by
  have h : a = b ↔ a.toInt = b.toInt := BitVec.toInt_inj.symm
  simp only [BitVec.sle, BitVec.slt, Bool.beq_eq_decide_eq, h]
  grind

@[simp] theorem holds_compare (cond : Cond) (a b : Word) :
    cond.holds (.compare a b) = cond.eval a b := by
  have h := negative_ne_overflow a b
  have hle := sle_eq_or a b
  have hge : b.sle a = !a.slt b := by simp [BitVec.sle, BitVec.slt, ← decide_not]
  have hgt : b.slt a = !a.sle b := by simp [BitVec.sle, BitVec.slt, ← decide_not]
  cases cond <;> simp only [holds, eval, Flags.compare] <;> grind

end Cond

/-! ## Widths -/

namespace Width

def low : Width → Word → Word
  | .byte, v => (v.setWidth 8).setWidth 64
  | .word, v => v

@[simp] theorem low_word (v : Word) : low .word v = v := rfl

@[simp] theorem low_low (width : Width) (v : Word) : width.low (width.low v) = width.low v := by
  cases width <;> simp [low]

theorem low_byte_eq_iff (v : Word) : low .byte v = v ↔ v.toNat < 256 := by
  rw [low, ← BitVec.toNat_inj]
  simp only [BitVec.toNat_setWidth]
  omega

theorem bytes_le (width : Width) : width.bytes ≤ 8 := by cases width <;> decide

theorem bytes_pos (width : Width) : 0 < width.bytes := by cases width <;> decide

end Width

theorem Ty.width_bytes {ty : Ty} (h : 0 < ty.size) : ty.width.bytes = ty.size := by
  cases ty <;> simp_all [Ty.width, Ty.size, Width.bytes, wordSize]

/-! ## States -/

structure State where
  regs : Register → Word
  mem : Word → Byte
  flags : Flags

namespace State

def set (s : State) (reg : Register) (v : Word) : State :=
  { s with regs := Function.update s.regs reg v }

/-- Words are kept with their low byte first. -/
def load (s : State) : Width → Word → Word
  | .byte, a => (s.mem a).setWidth 64
  | .word, a =>
    s.mem (a + 7#64) ++ s.mem (a + 6#64) ++ s.mem (a + 5#64) ++ s.mem (a + 4#64) ++
      s.mem (a + 3#64) ++ s.mem (a + 2#64) ++ s.mem (a + 1#64) ++ s.mem a

def store (s : State) (width : Width) (a v : Word) : State :=
  { s with
    mem := fun b =>
      if (b - a).toNat < width.bytes then v.extractLsb' (8 * (b - a).toNat) 8 else s.mem b }

@[simp] theorem set_mem (s : State) (reg : Register) (v : Word) : (s.set reg v).mem = s.mem := rfl

@[simp] theorem set_flags (s : State) (reg : Register) (v : Word) :
    (s.set reg v).flags = s.flags := rfl

@[simp] theorem set_regs_self (s : State) (reg : Register) (v : Word) :
    (s.set reg v).regs reg = v := by
  simp [set]

theorem set_regs (s : State) (a b : Register) (v : Word) :
    (s.set a v).regs b = if b = a then v else s.regs b := by
  simp [set, Function.update_apply]

theorem set_regs_ne (s : State) {a b : Register} (v : Word) (h : b ≠ a) :
    (s.set a v).regs b = s.regs b := by
  rw [set_regs, if_neg h]

@[simp] theorem set_set (s : State) (reg : Register) (v w : Word) :
    (s.set reg v).set reg w = s.set reg w := by
  simp [set]

@[simp] theorem set_eq_self (s : State) (reg : Register) : s.set reg (s.regs reg) = s := by
  simp [set]

@[simp] theorem set_load (s : State) (reg : Register) (v : Word) (width : Width) (a : Word) :
    (s.set reg v).load width a = s.load width a := by
  cases width <;> rfl

@[simp] theorem store_regs (s : State) (width : Width) (a v : Word) :
    (s.store width a v).regs = s.regs := rfl

@[simp] theorem store_flags (s : State) (width : Width) (a v : Word) :
    (s.store width a v).flags = s.flags := rfl

theorem store_mem (s : State) (width : Width) (a v b : Word) :
    (s.store width a v).mem b =
      if (b - a).toNat < width.bytes then v.extractLsb' (8 * (b - a).toNat) 8 else s.mem b := rfl

theorem add_sub_toNat (a : Word) {i : Nat} (h : i < 2 ^ 64) :
    (a + BitVec.ofNat 64 i - a).toNat = i := by
  rw [BitVec.add_comm, BitVec.add_sub_cancel, BitVec.toNat_ofNat, Nat.mod_eq_of_lt h]

theorem load_congr {s t : State} {width : Width} {a : Word}
    (h : ∀ b, (b - a).toNat < width.bytes → t.mem b = s.mem b) : t.load width a = s.load width a := by
  have hbyte : ∀ i : Nat, i < width.bytes → t.mem (a + .ofNat 64 i) = s.mem (a + .ofNat 64 i) := by
    intro i hi
    have := width.bytes_le
    apply h
    rwa [add_sub_toNat a (by omega)]
  cases width with
  | byte => simpa [load] using congrArg (BitVec.setWidth 64) (hbyte 0 (by decide))
  | word =>
    have h0 := hbyte 0 (by decide)
    rw [BitVec.add_zero] at h0
    simp only [load]
    rw [h0, hbyte 1 (by decide), hbyte 2 (by decide), hbyte 3 (by decide), hbyte 4 (by decide),
      hbyte 5 (by decide), hbyte 6 (by decide), hbyte 7 (by decide)]

@[simp] theorem load_store (s : State) (width : Width) (a v : Word) :
    (s.store width a v).load width a = width.low v := by
  have hoff : ∀ i : Nat, i < width.bytes →
      (s.store width a v).mem (a + .ofNat 64 i) = v.extractLsb' (8 * i) 8 := by
    intro i hi
    have := width.bytes_le
    rw [store_mem, add_sub_toNat a (by omega), if_pos hi]
  cases width with
  | byte =>
    have h0 := hoff 0 (by decide)
    simp only [BitVec.add_zero] at h0
    simp only [load, Width.low, h0]
    ext i hi
    simp
  | word =>
    have h0 := hoff 0 (by decide)
    rw [BitVec.add_zero] at h0
    simp only [load]
    rw [h0, hoff 1 (by decide), hoff 2 (by decide), hoff 3 (by decide), hoff 4 (by decide),
      hoff 5 (by decide), hoff 6 (by decide), hoff 7 (by decide)]
    apply BitVec.eq_of_getLsbD_eq
    intro i hi
    simp only [BitVec.getLsbD_append, BitVec.getLsbD_extractLsb', Width.low_word]
    grind

end State

/-! ## Differences -/

/-- The states differ at most in the registers `regs` and at the addresses `mem`. -/
structure ChangesOnly (regs : Register → Prop) (mem : Word → Prop) (s t : State) : Prop where
  reg : ∀ r, ¬ regs r → t.regs r = s.regs r
  byte : ∀ a, ¬ mem a → t.mem a = s.mem a

namespace ChangesOnly

variable {regs regs' : Register → Prop} {mem mem' : Word → Prop} {s t u : State}

theorem refl (regs : Register → Prop) (mem : Word → Prop) (s : State) : ChangesOnly regs mem s s :=
  ⟨fun _ _ => rfl, fun _ _ => rfl⟩

theorem mono (h : ChangesOnly regs mem s t) (hr : ∀ r, regs r → regs' r)
    (hm : ∀ a, mem a → mem' a) : ChangesOnly regs' mem' s t :=
  ⟨fun r hn => h.reg r (hn <| hr r ·), fun a hn => h.byte a (hn <| hm a ·)⟩

theorem trans (h : ChangesOnly regs mem s t) (h' : ChangesOnly regs mem t u) :
    ChangesOnly regs mem s u :=
  ⟨fun r hn => (h'.reg r hn).trans (h.reg r hn), fun a hn => (h'.byte a hn).trans (h.byte a hn)⟩

theorem set {reg : Register} {v : Word} (h : regs reg) : ChangesOnly regs mem s (s.set reg v) :=
  ⟨fun _ hn => s.set_regs_ne v fun hr => hn (hr ▸ h), fun _ _ => rfl⟩

theorem store {width : Width} {a v : Word} (h : ∀ b, (b - a).toNat < width.bytes → mem b) :
    ChangesOnly regs mem s (s.store width a v) :=
  ⟨fun _ _ => rfl, fun b hn => by rw [State.store_mem, if_neg fun hb => hn (h b hb)]⟩

theorem load_eq (h : ChangesOnly regs mem s t) {width : Width} {a : Word}
    (ha : ∀ b, (b - a).toNat < width.bytes → ¬ mem b) : t.load width a = s.load width a :=
  State.load_congr fun b hb => h.byte b (ha b hb)

end ChangesOnly

/-! ## Places below a frame pointer -/

/-- How many bytes `a` lies below `fp`. -/
def below (fp a : Word) : Nat := (fp - a).toNat

theorem covers_iff {fp a : Word} {offset n : Nat} (hle : n ≤ offset)
    (hlt : offset < 2 ^ 64) :
    (a - (fp - BitVec.ofNat 64 offset)).toNat < n ↔
      offset - n < below fp a ∧ below fp a ≤ offset := by
  have hfp := fp.isLt
  have ha := a.isLt
  simp only [below, BitVec.toNat_sub, BitVec.toNat_ofNat]
  omega

end ArmBackend
