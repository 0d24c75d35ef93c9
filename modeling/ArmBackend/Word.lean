/-!
# Machine words

Words of 64 bits, their 16-bit chunks, and rounding to an alignment.
-/

namespace ArmBackend

abbrev Byte := BitVec 8

abbrev Word := BitVec 64

/-- Bytes of a word. -/
def wordSize : Nat := 8

/-- The 16 bits of `bits` that start at bit `shift`. -/
def Word.chunk (bits : Word) (shift : Nat) : Nat := (bits.extractLsb' shift 16).toNat

/-- The least multiple of `align` that is not below `value`. -/
def alignUp (value align : Nat) : Nat := (value + align - 1) / align * align

theorem alignUp_mod (value align : Nat) : alignUp value align % align = 0 := Nat.mul_mod_left _ _

theorem le_alignUp (value : Nat) {align : Nat} (h : 0 < align) : value ≤ alignUp value align := by
  have := Nat.div_add_mod (value + align - 1) align
  have := Nat.mod_lt (value + align - 1) h
  rw [alignUp, Nat.mul_comm]
  omega

theorem alignUp_lt (value : Nat) {align : Nat} (h : 0 < align) :
    alignUp value align < value + align := by
  have := Nat.div_mul_le_self (value + align - 1) align
  rw [alignUp]
  omega

theorem alignUp_least {value align bound : Nat} (h : 0 < align) (hdvd : align ∣ bound) (hle : value ≤ bound) :
    alignUp value align ≤ bound := by
  obtain ⟨count, rfl⟩ := hdvd
  have hcount : (value + align - 1) / align ≤ count := by
    rw [Nat.div_le_iff_le_mul_add_pred h]
    omega
  rw [alignUp, Nat.mul_comm align]
  exact Nat.mul_le_mul_right align hcount

/-- What has to be added to `position` to reach a multiple of `align`. -/
def paddingTo (align position : Nat) : Nat := (align - position % align) % align

theorem paddingTo_lt (position : Nat) {align : Nat} (h : 0 < align) :
    paddingTo align position < align := Nat.mod_lt _ h

theorem add_paddingTo_mod (position : Nat) {align : Nat} (h : 0 < align) :
    (position + paddingTo align position) % align = 0 := by
  have hlt := Nat.mod_lt position h
  have hdiv := Nat.div_add_mod position align
  rw [paddingTo]
  by_cases h0 : position % align = 0
  · simp [h0]
  · rw [Nat.mod_eq_of_lt (by omega : align - position % align < align)]
    have : position + (align - position % align) = align * (position / align + 1) := by
      rw [Nat.mul_add]
      omega
    rw [this, Nat.mul_mod_right]

end ArmBackend
