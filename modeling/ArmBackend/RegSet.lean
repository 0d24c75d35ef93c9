import ArmBackend.Register

/-!
# Register sets

A set of registers is a mask that has one bit per register number.
-/

namespace ArmBackend

structure RegSet where
  mask : BitVec 32 := 0
deriving DecidableEq

namespace RegSet

def bit (reg : Register) : BitVec 32 := 1#32 <<< reg.number

def insert (set : RegSet) (reg : Register) : RegSet := ⟨set.mask ||| bit reg⟩

def erase (set : RegSet) (reg : Register) : RegSet := ⟨set.mask &&& ~~~bit reg⟩

def contains (set : RegSet) (reg : Register) : Bool := set.mask.getLsbD reg.number

theorem getLsbD_bit (reg : Register) (i : Nat) : (bit reg).getLsbD i = decide (reg.number = i) := by
  have := reg.number_lt
  rw [bit, BitVec.getLsbD_shiftLeft, BitVec.getLsbD_one]
  by_cases h : reg.number = i
  · subst h
    simp [this]
  · simp [h]
    omega

/-- A register is contained when the mask and its bit have a bit in common. -/
theorem contains_eq_and (set : RegSet) (reg : Register) :
    set.contains reg = (set.mask &&& bit reg != 0#32) := by
  have hbit : bit reg ≠ 0#32 := by
    intro h
    simpa [h] using getLsbD_bit reg reg.number
  have hand : set.mask &&& bit reg = if set.contains reg then bit reg else 0#32 :=
    BitVec.and_twoPow set.mask reg.number
  rw [hand]
  cases set.contains reg <;> simp [hbit]

@[simp] theorem contains_empty (reg : Register) : ({} : RegSet).contains reg = false := by
  simp [contains]

@[simp] theorem contains_insert (set : RegSet) (a b : Register) :
    (set.insert a).contains b = (set.contains b || decide (a = b)) := by
  simp only [contains, insert, BitVec.getLsbD_or, getLsbD_bit, Register.number_inj]

@[simp] theorem contains_erase (set : RegSet) (a b : Register) :
    (set.erase a).contains b = (set.contains b && decide (a ≠ b)) := by
  have := b.number_lt
  simp only [contains, erase, BitVec.getLsbD_and, BitVec.getLsbD_not, getLsbD_bit,
    Register.number_inj]
  simp [this]

def size (set : RegSet) : Nat := (List.range 32).countP set.mask.getLsbD

def isEmpty (set : RegSet) : Bool := set.mask == 0

theorem isEmpty_iff (set : RegSet) : set.isEmpty = true ↔ set.size = 0 := by
  rw [isEmpty, beq_iff_eq, size, List.countP_eq_zero]
  constructor
  · intro h i _
    simp [h]
  · intro h
    apply BitVec.eq_of_getLsbD_eq
    intro i hi
    simpa using h i (List.mem_range.mpr hi)

/-- The first register of `bank` that is not in the set. -/
def firstFree? (set : RegSet) (bank : List Register) : Option Register :=
  bank.find? (!set.contains ·)

end RegSet

end ArmBackend
