import ArmBackend.Proofs.Machine.Run
import ArmBackend.Proofs.Machine.Steady
import ArmBackend.Proofs.Machine.Trace

/-!
# Runs that trap

Runs of a text in which the kernel answers traps. A run lists the states in which it traps, which hold
what is asked of the kernel.
-/

namespace ArmBackend

/-! ## Bytes in memory -/

namespace State

def bytes (s : State) (a : Word) (n : Nat) : List Byte :=
  (List.range n).map fun i => s.mem (a + .ofNat 64 i)

theorem add_one_add_ofNat (a : Word) (i : Nat) : a + 1#64 + .ofNat 64 i = a + .ofNat 64 (i + 1) := by
  rw [BitVec.add_assoc, ← BitVec.ofNat_add, Nat.add_comm 1 i]

theorem bytes_succ (s : State) (a : Word) (n : Nat) :
    s.bytes a (n + 1) = s.mem a :: s.bytes (a + 1#64) n := by
  simp only [bytes, List.range_succ_eq_map, List.map_cons, List.map_map, BitVec.add_zero, List.cons.injEq,
    true_and]
  exact List.map_congr_left fun i _ => congrArg s.mem (add_one_add_ofNat a i).symm

theorem bytes_congr {s t : State} {a : Word} {n : Nat}
    (h : ∀ i < n, t.mem (a + .ofNat 64 i) = s.mem (a + .ofNat 64 i)) : t.bytes a n = s.bytes a n :=
  List.map_congr_left fun i hi => h i (List.mem_range.mp hi)

theorem bytes_store (s : State) (a v : Word) {n : Nat} (hn : n < 2 ^ 64) :
    (s.store .byte a v).bytes a (n + 1) = v.setWidth 8 :: s.bytes (a + 1#64) n := by
  rw [bytes_succ]
  refine congrArg₂ _ ?_ (bytes_congr fun i hi => ?_)
  · rw [store_mem, BitVec.sub_self, if_pos (by decide)]
    exact BitVec.setWidth_eq_extractLsb' (by decide) |>.symm
  · have hdistance : (a + 1#64 + .ofNat 64 i - a).toNat = i + 1 := by
      rw [add_one_add_ofNat]
      exact add_sub_toNat a (by omega)
    rw [store_mem, hdistance, if_neg]
    simp [Width.bytes]

end State

/-! ## Runs -/

namespace Image

variable {image : Image} {pc pc' : Nat} {s : State}

/-- A run that traps in the states `traps`, after each of which it goes on as the kernel leaves it. Its
own steps write memory inside `region` only. -/
inductive Performs (image : Image) (kernel : State → State) (region : Word → Prop) :
    Config → List State → Config → Prop
  | refl (c : Config) : Performs image kernel region c [] c
  | step {c d e : Config} {traps : List State} (next : image.step c = some d)
      (outside : ∀ a, ¬ region a → d.state.mem a = c.state.mem a)
      (rest : Performs image kernel region d traps e) : Performs image kernel region c traps e
  | trap {c e : Config} {traps : List State} {imm : Nat}
      (line : image.code[c.pc]? = some (.instr (.svc imm)))
      (rest : Performs image kernel region ⟨c.pc + 1, kernel c.state⟩ traps e) :
      Performs image kernel region c (c.state :: traps) e

namespace Performs

variable {kernel : State → State} {region : Word → Prop} {c d e : Config} {traps traps' : List State}

theorem trans (h : image.Performs kernel region c traps d)
    (h' : image.Performs kernel region d traps' e) :
    image.Performs kernel region c (traps ++ traps') e := by
  induction h with
  | refl => exact h'
  | step next outside _ ih => exact .step next outside (ih h')
  | trap line _ ih => exact .trap line (ih h')

theorem pass (h : image.step ⟨pc, s⟩ = some ⟨pc', s⟩)
    (h' : image.Performs kernel region ⟨pc', s⟩ traps e) :
    image.Performs kernel region ⟨pc, s⟩ traps e :=
  .step h (fun _ _ => rfl) h'

theorem of_maintains (kernel : State → State) {part : Code} {mem : Word → Byte} {Q : State → Prop}
    (hat : image.At pc part)
    (h : Code.Maintains (Code.alone image.symbol) (fun t => ∀ a, ¬ region a → t.mem a = mem a) part s Q)
    (hQ : ∀ t, Q t → ∀ a, ¬ region a → t.mem a = mem a) :
    ∃ t, image.Performs kernel region ⟨pc, s⟩ [] ⟨pc + part.length, t⟩ ∧ Q t := by
  induction part generalizing pc s with
  | nil => exact ⟨s, .refl _, h⟩
  | cons line part ih =>
    obtain ⟨hline, htail⟩ := at_cons.mp hat
    rw [List.length_cons, Nat.add_comm part.length, ← Nat.add_assoc]
    cases line with
    | label label => exact h.elim
    | directive directive => exact h.elim
    | instr instr =>
      obtain ⟨hs, hens⟩ := h
      have hstep : ∃ u, instr.exec image.symbol s = some u ∧
          Code.Maintains (Code.alone image.symbol) (fun t => ∀ a, ¬ region a → t.mem a = mem a) part u Q := by
        cases instr <;> first | exact hens | exact hens.elim
      obtain ⟨u, hu, hrest⟩ := hstep
      obtain ⟨t, hperforms, ht⟩ := ih htail hrest
      have hmem : ∀ a, ¬ region a → u.mem a = mem a := by
        cases part with
        | nil => exact hQ u hrest
        | cons line part =>
          cases line with
          | instr instr => exact hrest.1
          | label label => exact hrest.elim
          | directive directive => exact hrest.elim
      exact ⟨t, .step (step_of_exec hline hu) (fun a ha => (hmem a ha).trans (hs a ha).symm) hperforms, ht⟩

end Performs

end Image

end ArmBackend
