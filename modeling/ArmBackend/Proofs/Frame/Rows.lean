import ArmBackend.Proofs.Frame.History
import Mathlib.Data.List.Nodup

/-!
# Rows of slots

Variables of one type that are reserved one after the other lie side by side, the last one lowest. Only
the first can be padded.
-/

namespace ArmBackend

namespace Slot

/-- `count` slots side by side. The first lies `first` bytes below the frame pointer, and each other
above the one before it. -/
def row (ty : Ty) (first count : Nat) : List Slot :=
  (List.range count).map fun i => ⟨first - i * ty.size, ty⟩

theorem row_succ (ty : Ty) (first count : Nat) :
    row ty first (count + 1) = row ty first count ++ [⟨first - count * ty.size, ty⟩] := by
  simp [row, List.range_succ]

@[simp] theorem length_row (ty : Ty) (first count : Nat) : (row ty first count).length = count := by
  simp [row]

theorem head?_row (ty : Ty) (first count : Nat) :
    (row ty first (count + 1)).head? = some ⟨first, ty⟩ := by
  simp [row, List.range_succ_eq_map]

theorem mem_row {ty : Ty} {first count : Nat} {slot : Slot} :
    slot ∈ row ty first count ↔ ∃ i < count, slot = ⟨first - i * ty.size, ty⟩ := by
  simp [row, eq_comm]

theorem nodup_row {ty : Ty} {first count : Nat} (hsize : 0 < ty.size)
    (hle : count * ty.size ≤ first) : (row ty first count).Nodup := by
  refine List.Nodup.map_on (fun i hi j hj heq => ?_) List.nodup_range
  simp only [List.mem_range] at hi hj
  have hi' := Nat.mul_le_mul_right ty.size (Nat.le_of_lt hi)
  have hj' := Nat.mul_le_mul_right ty.size (Nat.le_of_lt hj)
  have hoffset : first - i * ty.size = first - j * ty.size := congrArg Slot.offset heq
  exact Nat.eq_of_mul_eq_mul_right hsize (by omega)

end Slot

namespace Frame

structure Rows (ty : Ty) (count : Nat) (f g : Frame) : Prop where
  locals : g.locals = Slot.row ty g.position count ++ f.locals
  position : f.position + count * ty.size ≤ g.position
  dvd : 0 < count → ty.size ∣ g.position
  /-- Only a first slot at an unaligned position is padded. -/
  unpadded : ty.size ∣ f.position → g.position = f.position + count * ty.size

theorem Rows.succ {ty : Ty} {count : Nat} {f g h : Frame} {slot : Slot}
    (hrun : (reserveVariable ty).run f = (.ok slot, g)) (hrows : Rows ty count g h) :
    Rows ty (count + 1) f h ∧
      Slot.row ty h.position (count + 1) = Slot.row ty h.position count ++ [slot] := by
  obtain ⟨-, hsize, rfl, rfl⟩ := reserveVariable_ok hrun
  have hdvd : ty.size ∣ f.position + f.slotSize ty := dvd_withSlot f hsize
  have hposition : h.position = f.position + f.slotSize ty + count * ty.size := hrows.unpadded hdvd
  have hslot : f.position + f.slotSize ty = h.position - count * ty.size := by omega
  have hrow : Slot.row ty h.position (count + 1) =
      Slot.row ty h.position count ++ [⟨f.position + f.slotSize ty, ty⟩] := by
    rw [Slot.row_succ, hslot]
  refine ⟨⟨?_, ?_, fun _ => ?_, fun hfirst => ?_⟩, hrow⟩
  · rw [hrows.locals, hrow, List.append_assoc]
    rfl
  · rw [hposition, slotSize, Nat.succ_mul]
    omega
  · rw [hposition]
    exact Nat.dvd_add hdvd (Nat.dvd_mul_left _ _)
  · have hpadding : paddingTo ty.size f.position = 0 := by
      rw [paddingTo, Nat.mod_eq_zero_of_dvd hfirst, Nat.sub_zero, Nat.mod_self]
    rw [hposition, slotSize, hpadding, Nat.succ_mul]
    omega

end Frame

namespace Frame.Rows

variable {ty : Ty} {count : Nat} {f g : Frame}

theorem room (h : Rows ty count f g) : count * ty.size ≤ g.position := by
  have := h.position
  omega

theorem bounds (h : Rows ty count f g) {slot : Slot} (hslot : slot ∈ Slot.row ty g.position count) :
    slot.ty = ty ∧ f.position + ty.size ≤ slot.offset ∧ slot.offset ≤ g.position := by
  obtain ⟨i, hi, rfl⟩ := Slot.mem_row.mp hslot
  have hposition := h.position
  have hle := Nat.mul_le_mul_right ty.size (Nat.succ_le_of_lt hi)
  rw [Nat.succ_mul] at hle
  refine ⟨rfl, ?_, Nat.sub_le _ _⟩
  change _ ≤ g.position - i * ty.size
  omega

theorem aligned (h : Rows ty count f g) {slot : Slot} (hslot : slot ∈ Slot.row ty g.position count) :
    slot.ty.size ∣ slot.offset := by
  obtain ⟨i, hi, rfl⟩ := Slot.mem_row.mp hslot
  exact Nat.dvd_sub (h.dvd (Nat.zero_lt_of_lt hi)) (Nat.dvd_mul_left _ _)

end Frame.Rows

end ArmBackend
