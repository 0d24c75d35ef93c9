import ArmBackend.RegSet
import Mathlib.Data.Finset.Card
import Mathlib.Data.List.Induction

/-!
# Register sets are sets

After any insertions and removals, the bits of the mask are the numbers of the registers that the same
operations leave in a finite set, and every answer is the one that the finite set gives.
-/

namespace ArmBackend

namespace RegSet

variable {set : RegSet} {regs : Finset Register} {reg : Register} {bank : List Register}

/-! ## The registers of a mask -/

/-- The bits of the mask are the numbers of the registers in `regs`. A mask with bit 18 represents no set
at all, because no register has that number. -/
def Represents (set : RegSet) (regs : Finset Register) : Prop :=
  ∀ i, set.mask.getLsbD i = true ↔ ∃ reg ∈ regs, reg.number = i

theorem represents_empty : Represents {} ∅ := fun i => by simp

structure AnswersAs (set : RegSet) (regs : Finset Register) : Prop where
  contains : ∀ reg, set.contains reg = true ↔ reg ∈ regs
  size : set.size = regs.card
  isEmpty : set.isEmpty = true ↔ set.size = 0
  firstFree : ∀ bank reg, set.firstFree? bank = some reg ↔
    ∃ taken rest, bank = taken ++ reg :: rest ∧ (∀ other ∈ taken, other ∈ regs) ∧ reg ∉ regs
  noneFree : ∀ bank, set.firstFree? bank = none ↔ ∀ reg ∈ bank, reg ∈ regs

namespace Represents

theorem insert (h : Represents set regs) (reg : Register) :
    Represents (set.insert reg) (Insert.insert reg regs) := by
  intro i
  simp only [RegSet.insert, BitVec.getLsbD_or, getLsbD_bit, Bool.or_eq_true, decide_eq_true_eq, h i,
    Finset.exists_mem_insert]
  exact or_comm

theorem erase (h : Represents set regs) (reg : Register) :
    Represents (set.erase reg) (regs.erase reg) := by
  intro i
  simp only [RegSet.erase, BitVec.getLsbD_and, BitVec.getLsbD_not, getLsbD_bit, Bool.and_eq_true, h i,
    Finset.mem_erase]
  -- No two registers share a number, so the cleared bit is that of `reg` alone.
  constructor
  · rintro ⟨⟨other, hother, rfl⟩, hbit⟩
    have hne : other ≠ reg := by
      rintro rfl
      simp at hbit
    exact ⟨other, ⟨hne, hother⟩, rfl⟩
  · rintro ⟨other, ⟨hne, hother⟩, rfl⟩
    have hnumber : reg.number ≠ other.number := fun heq => hne (Register.number_inj.mp heq).symm
    exact ⟨⟨other, hother, rfl⟩, by simp [other.number_lt, hnumber]⟩

theorem contains (h : Represents set regs) (reg : Register) : set.contains reg = true ↔ reg ∈ regs := by
  simp only [RegSet.contains, h reg.number, Register.number_inj, exists_eq_right]

theorem size (h : Represents set regs) : set.size = regs.card := by
  have hbits : ((List.range 32).filter set.mask.getLsbD).toFinset = regs.image Register.number := by
    ext i
    simp only [List.mem_toFinset, List.mem_filter, List.mem_range, h i, Finset.mem_image,
      and_iff_right_iff_imp]
    rintro ⟨reg, -, rfl⟩
    exact reg.number_lt
  have hinjective : Function.Injective Register.number := fun _ _ => Register.number_inj.mp
  calc set.size
      = ((List.range 32).filter set.mask.getLsbD).length := List.countP_eq_length_filter
    _ = ((List.range 32).filter set.mask.getLsbD).toFinset.card :=
        (List.toFinset_card_of_nodup (List.nodup_range.filter _)).symm
    _ = regs.card := by rw [hbits, Finset.card_image_of_injective _ hinjective]

theorem firstFree?_eq_some_iff (h : Represents set regs) :
    set.firstFree? bank = some reg ↔
      ∃ taken rest, bank = taken ++ reg :: rest ∧ (∀ other ∈ taken, other ∈ regs) ∧ reg ∉ regs := by
  simp only [firstFree?, List.find?_eq_some_iff_append, Bool.not_not, Bool.not_eq_true', ← h.contains,
    Bool.not_eq_true]
  constructor
  · rintro ⟨hfree, taken, rest, hbank, htaken⟩
    exact ⟨taken, rest, hbank, htaken, hfree⟩
  · rintro ⟨taken, rest, hbank, htaken, hfree⟩
    exact ⟨hfree, taken, rest, hbank, htaken⟩

theorem firstFree?_eq_none_iff (h : Represents set regs) :
    set.firstFree? bank = none ↔ ∀ reg ∈ bank, reg ∈ regs := by
  simp only [firstFree?, List.find?_eq_none, Bool.not_eq_true', Bool.not_eq_false, h.contains]

theorem answersAs (h : Represents set regs) : AnswersAs set regs where
  contains := h.contains
  size := h.size
  isEmpty := set.isEmpty_iff
  firstFree := fun _ _ => h.firstFree?_eq_some_iff
  noneFree := fun _ => h.firstFree?_eq_none_iff

end Represents

/-! ## Operations in sequence -/

inductive Op where
  | insert (reg : Register)
  | erase (reg : Register)

namespace Op

def target : Op → Register
  | .insert reg => reg
  | .erase reg => reg

def apply (set : RegSet) : Op → RegSet
  | .insert reg => set.insert reg
  | .erase reg => set.erase reg

def applyTo (regs : Finset Register) : Op → Finset Register
  | .insert reg => Insert.insert reg regs
  | .erase reg => regs.erase reg

theorem mem_applyTo (op : Op) :
    reg ∈ op.applyTo regs ↔ op = .insert reg ∨ op.target ≠ reg ∧ reg ∈ regs := by
  cases op with
  | insert other =>
    simp only [applyTo, target, Finset.mem_insert, Op.insert.injEq]
    grind
  | erase other =>
    simp only [applyTo, target, Finset.mem_erase]
    grind

end Op

/-- The set that operations leave of a new one. -/
def after (ops : List Op) : RegSet := ops.foldl Op.apply {}

def members (ops : List Op) : Finset Register := ops.foldl Op.applyTo ∅

/-- The last of the operations on the register inserts it. -/
def InsertedLast (ops : List Op) (reg : Register) : Prop :=
  ∃ earlier later, ops = earlier ++ .insert reg :: later ∧ ∀ op ∈ later, op.target ≠ reg

variable {ops : List Op} {op : Op}

theorem Represents.apply (h : Represents set regs) (op : Op) :
    Represents (op.apply set) (op.applyTo regs) := by
  cases op with
  | insert reg => exact h.insert reg
  | erase reg => exact h.erase reg

theorem represents_after (ops : List Op) : Represents (after ops) (members ops) := by
  induction ops using List.reverseRecOn with
  | nil => exact represents_empty
  | append_singleton ops op ih =>
    rw [after, members, List.foldl_concat, List.foldl_concat]
    exact ih.apply op

theorem insertedLast_concat :
    InsertedLast (ops ++ [op]) reg ↔ op = .insert reg ∨ op.target ≠ reg ∧ InsertedLast ops reg := by
  constructor
  · rintro ⟨earlier, later, heq, hlater⟩
    -- The operation at the end is the insertion itself or one that came after it.
    rcases List.eq_nil_or_concat' later with rfl | ⟨later, last, rfl⟩
    · obtain ⟨-, hop⟩ := List.append_inj' heq rfl
      exact Or.inl (List.singleton_inj.mp hop)
    · rw [← List.cons_append, ← List.append_assoc] at heq
      obtain ⟨rfl, hop⟩ := List.append_inj' heq rfl
      obtain rfl := List.singleton_inj.mp hop
      rw [List.forall_mem_append, List.forall_mem_singleton] at hlater
      exact Or.inr ⟨hlater.2, earlier, later, rfl, hlater.1⟩
  · rintro (rfl | ⟨hne, earlier, later, rfl, hlater⟩)
    · exact ⟨ops, [], rfl, nofun⟩
    · refine ⟨earlier, later ++ [op], by simp, ?_⟩
      rw [List.forall_mem_append, List.forall_mem_singleton]
      exact ⟨hlater, hne⟩

theorem mem_members : reg ∈ members ops ↔ InsertedLast ops reg := by
  induction ops using List.reverseRecOn with
  | nil => simp [members, InsertedLast]
  | append_singleton ops op ih =>
    rw [members, List.foldl_concat, ← members, Op.mem_applyTo, ih, insertedLast_concat]

/-- After any operations on a new set, it contains the registers that the last operation on them
inserted, and every answer is the one that the same operations on a finite set give. -/
theorem after_refines_finset (ops : List Op) :
    (∀ reg, (after ops).contains reg = true ↔ InsertedLast ops reg) ∧
      AnswersAs (after ops) (members ops) := by
  have hrep := represents_after ops
  exact ⟨fun reg => (hrep.contains reg).trans mem_members, hrep.answersAs⟩

-- x17 and x19 are neighbours among the roles, not among the bits.
example :
    (after [.insert (.calleeSaved 0), .insert (.scratch 1), .insert (.calleeSaved 0),
      .erase (.scratch 1)]).firstFree? [.calleeSaved 0, .calleeSaved 0, .scratch 1] =
      some (.scratch 1) := by decide

end RegSet

end ArmBackend
