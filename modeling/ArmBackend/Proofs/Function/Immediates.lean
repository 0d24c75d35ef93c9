import ArmBackend.Proofs.Function.Framed
import ArmBackend.Proofs.Machine.Trace

/-!
# Constants, addresses and stack adjustments

What a register or the stack pointer is given is exact, whichever of its forms the code takes: for every
64-bit constant, for every distance from the frame pointer and for every size. Each form holds its numbers
in immediates that fit.
-/

namespace ArmBackend

namespace Word

theorem chunk_eq (bits : Word) (shift : Nat) : bits.chunk shift = bits.toNat / 2 ^ shift % 2 ^ 16 := by
  rw [chunk, BitVec.extractLsb'_toNat, Nat.shiftRight_eq_div_pow]

/-- The upper 16-bit chunks that are not 0, by the bits that they start at. -/
def upperChunks (bits : Word) : List Nat :=
  [16, 32, 48].filter fun shift => bits.toNat / 2 ^ shift % 2 ^ 16 ≠ 0

end Word

namespace Code

variable {symbol : Label → Word} {code : Code} {s t : State} {instr : Instr} {dst : Register}

theorem exec_of_ensures_iff (h : ∀ Q, Ensures (alone symbol) code s Q ↔ Q t) :
    code.exec symbol s = some t := by
  obtain ⟨u, hexec, rfl⟩ := exec_of_ensures ((h (· = t)).mpr rfl)
  exact hexec

/-! ## Constants -/

theorem constant_eq_chunks (dst : Register) (bits : Word) :
    constant dst bits = ofInstrs (.movImm dst (bits.toNat % 2 ^ 16) ::
      bits.upperChunks.map fun shift => .movk dst (bits.toNat / 2 ^ shift % 2 ^ 16) shift) := by
  have hlow : bits.chunk 0 = bits.toNat % 2 ^ 16 := by rw [Word.chunk_eq, Nat.pow_zero, Nat.div_one]
  rw [constant, hlow, Word.upperChunks]
  rw [← List.filterMap_eq_map, List.filterMap_filter]
  refine congrArg _ (congrArg _ (List.filterMap_congr fun shift _ => ?_))
  by_cases h : bits.toNat / 2 ^ shift % 2 ^ 16 = 0
  · rw [Word.chunk_eq, if_pos h, if_neg fun hne => (of_decide_eq_true hne : _ ≠ 0) h]
  · rw [Word.chunk_eq, if_neg h, if_pos (decide_eq_true h), Function.comp_apply]

theorem exec_constant (dst : Register) (bits : Word) :
    (constant dst bits).exec symbol s = some (s.set dst bits) :=
  exec_of_ensures_iff fun _ => ensures_constant dst bits s _

/-! ## Addresses and stack adjustments -/

theorem exec_frameAddress (hdst : dst ≠ .framePointer) (offset : Nat) :
    (frameAddress dst offset).exec symbol s =
      some (s.set dst (s.regs .framePointer - .ofNat 64 offset)) := by
  rw [← BitVec.ofInt_natCast]
  exact exec_of_ensures_iff fun _ => ensures_frameAddress hdst offset s _

theorem exec_adjustStack (change : StackChange) (size : Nat) :
    ∃ v, (size ≤ 4095 ∨ 4096 ∣ size ∧ size ≤ 4095 * 4096 → v = s.regs .staging) ∧
      (adjustStack change size).exec symbol s =
        some ((s.set .staging v).set .stackPointer (change.apply (s.regs .stackPointer) size)) := by
  obtain ⟨v, hfits, hmoves⟩ := adjustStack_moves (w := alone symbol) change size s
  exact ⟨v, hfits, exec_of_ensures_iff hmoves⟩

/-- Constants are built, addresses of slots computed and the stack pointer moved exactly, in code whose
immediates all fit. Nothing changes beside what is written, but for x16 where a size fits no immediate. -/
theorem materialization_exact (symbol : Label → Word) (s : State) :
    (∀ dst bits,
      (constant dst bits).exec symbol s = some (s.set dst bits) ∧
      constant dst bits = ofInstrs (.movImm dst (bits.toNat % 2 ^ 16) ::
        bits.upperChunks.map fun shift => .movk dst (bits.toNat / 2 ^ shift % 2 ^ 16) shift) ∧
      ∀ instr, .instr instr ∈ constant dst bits → instr.Encodable) ∧
    (∀ (dst : Register) (offset : Nat), dst ≠ .framePointer →
      (frameAddress dst offset).exec symbol s =
        some (s.set dst (s.regs .framePointer - .ofNat 64 offset)) ∧
      ∀ instr, .instr instr ∈ frameAddress dst offset → instr.Encodable) ∧
    ∀ (change : StackChange) (size : Nat),
      (∃ v, (size ≤ 4095 ∨ 4096 ∣ size ∧ size ≤ 4095 * 4096 → v = s.regs .staging) ∧
        (adjustStack change size).exec symbol s =
          some ((s.set .staging v).set .stackPointer
            (match change with
              | .grow => s.regs .stackPointer - .ofNat 64 size
              | .shrink => s.regs .stackPointer + .ofNat 64 size))) ∧
      ∀ instr, .instr instr ∈ adjustStack change size → instr.Encodable := by
  refine ⟨fun dst bits => ?_, fun dst offset hdst => ?_, fun change size => ?_⟩
  · exact ⟨exec_constant dst bits, constant_eq_chunks dst bits, fun _ => encodable_constant⟩
  · exact ⟨exec_frameAddress hdst offset, fun _ => encodable_frameAddress⟩
  · exact ⟨exec_adjustStack change size, fun _ h => (plain_adjustStack h).encodable⟩

/-- A distance of 4096 bytes fits no immediate. The address is exact all the same. -/
theorem materialization_exact_of_far_slot :
    let s : State := ⟨fun _ => 65536, fun _ => 0, .compare 0 0⟩
    let code := frameAddress .operand 4096
    Register.operand ≠ .framePointer ∧
      code = ofInstrs [.movImm .operand 4096, .arith .sub .operand .framePointer .operand] ∧
      ∃ t, code.exec (fun _ => 0) s = some t ∧ t.regs .operand = 61440 ∧ t.regs .framePointer = 65536 := by
  intro s code
  have hdst : Register.operand ≠ .framePointer := by decide
  have hexec := ((materialization_exact (fun _ => 0) s).2.1 .operand 4096 hdst).1
  exact ⟨hdst, by decide, _, hexec, by decide, by decide⟩

end Code

end ArmBackend
