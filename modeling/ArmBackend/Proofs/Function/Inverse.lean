import ArmBackend.Proofs.Function.Layout
import ArmBackend.Proofs.Machine.Run
import ArmBackend.Proofs.Machine.Trace
import Mathlib.Order.Bounds.Basic

/-!
# The epilogue undoes the prologue

Whatever the size of a frame, the epilogue gives back what the prologue changed, from any state that has
the stack pointer, the frame pointer and the record of the state after the prologue.
-/

namespace ArmBackend

/-! ## Rounding -/

theorem toNat_clear_15 (a : Word) : (a &&& ~~~15#64).toNat = a.toNat / 16 * 16 := by
  have hkeep : (a &&& 15#64).toNat = a.toNat % 16 := Nat.and_two_pow_sub_one_eq_mod a.toNat 4
  have hsum := congrArg BitVec.toNat (Code.clear_add_keep a 15#64)
  have hle : (a &&& ~~~15#64).toNat ≤ a.toNat := Nat.and_le_left
  have ha := a.isLt
  rw [BitVec.toNat_add, hkeep] at hsum
  omega

theorem ofNat_alignUp_16 {value : Nat} (h : value < 2 ^ 63) :
    BitVec.ofNat 64 (alignUp value 16) = (BitVec.ofNat 64 value + 15#64) &&& ~~~15#64 := by
  have hlt : alignUp value 16 < value + 16 := alignUp_lt value (by decide)
  apply BitVec.eq_of_toNat_eq
  rw [toNat_clear_15, BitVec.toNat_add, BitVec.toNat_ofNat, BitVec.toNat_ofNat, BitVec.toNat_ofNat,
    Nat.mod_eq_of_lt (by omega : alignUp value 16 < 2 ^ 64), alignUp]
  omega

namespace Image

variable {image : Image}

theorem after_of_exec {part : Code} {pc : Nat} {s t : State} (hat : image.At pc part)
    (h : part.exec image.symbol s = some t) (count : Nat) :
    image.after (part.length + count) ⟨pc, s⟩ = image.after count ⟨pc + part.length, t⟩ := by
  induction part generalizing pc s with
  | nil =>
    cases h
    rw [List.length_nil, Nat.zero_add, Nat.add_zero]
  | cons line part ih =>
    obtain ⟨hline, htail⟩ := at_cons.mp hat
    cases line with
    | label label => cases h
    | directive directive => cases h
    | instr instr =>
      obtain ⟨u, hu, hrest⟩ := Option.bind_eq_some_iff.mp h
      rw [List.length_cons, Nat.add_right_comm, after, step_of_exec hline hu, Option.bind_some,
        ih htail hrest, Nat.add_right_comm, Nat.add_assoc]

theorem after_of_exec_ret {part : Code} {pc : Nat} {s t : State}
    (hat : image.At pc (part ++ Code.ofInstrs [.ret])) (h : part.exec image.symbol s = some t) :
    image.after (part ++ Code.ofInstrs [.ret]).length ⟨pc, s⟩ =
      some ⟨(t.regs .linkRegister).toNat, t⟩ := by
  obtain ⟨hpart, hret⟩ := at_append.mp hat
  have hlength : (part ++ Code.ofInstrs [.ret]).length = part.length + 1 := List.length_append
  rw [hlength, after_of_exec hpart h, after, step_of_ret (at_cons.mp hret).1]
  rfl

end Image

namespace FrameLayout

variable {layout : FrameLayout} {highWater : Nat} {calls : Bool} {w : World} {s t u : State}

/-! ## Sizes -/

theorem isLeast_localsSize (highWater : Nat) (calls : Bool) :
    IsLeast {size | 16 ∣ size ∧ highWater ≤ size} (ofHighWater highWater calls).localsSize :=
  ⟨⟨Nat.dvd_of_mod_eq_zero (alignUp_mod _ _), le_localsSize highWater calls⟩,
    fun _ hsize => alignUp_least (by decide) hsize.1 hsize.2⟩

theorem dvd_totalSize (highWater : Nat) (calls : Bool) :
    16 ∣ (ofHighWater highWater calls).totalSize := by
  refine Nat.dvd_add (isLeast_localsSize highWater calls).1.1 ?_
  split
  · exact Nat.dvd_refl 16
  · exact Nat.dvd_zero 16

theorem totalSize_lt (h : highWater < 2 ^ 63) (calls : Bool) :
    (ofHighWater highWater calls).totalSize < 2 ^ 64 := by
  have hlt : (ofHighWater highWater calls).localsSize < highWater + 16 := alignUp_lt highWater (by decide)
  rw [totalSize, saveSlotSize]
  split <;> omega

/-! ## Entry and exit -/

structure Enters (layout : FrameLayout) (s t : State) : Prop where
  stackPointer : t.regs .stackPointer = s.regs .stackPointer - .ofNat 64 layout.totalSize
  framePointer : layout.savesRecord = true →
    t.regs .framePointer = t.regs .stackPointer + .ofNat 64 layout.localsSize
  record : layout.savesRecord = true →
    t.load .word (t.regs .framePointer) = s.regs .framePointer ∧
      t.load .word (t.regs .framePointer + 8#64) = s.regs .linkRegister
  only : ChangesOnly
    (fun reg => reg = .stackPointer ∨ reg = .staging ∨ layout.savesRecord = true ∧ reg = .framePointer)
    (fun a => layout.savesRecord = true ∧ (a - t.regs .framePointer).toNat < 16) s t

/-- The epilogue may be run in state `u` after the prologue has led to state `t`. The link register may
have been overwritten only if it was saved. -/
structure Resumes (layout : FrameLayout) (t u : State) : Prop where
  stackPointer : u.regs .stackPointer = t.regs .stackPointer
  framePointer : u.regs .framePointer = t.regs .framePointer
  record : layout.savesRecord = true →
    ∀ a, (a - t.regs .framePointer).toNat < 16 → u.mem a = t.mem a
  linkRegister : layout.savesRecord = false → u.regs .linkRegister = t.regs .linkRegister

theorem Opens.enters (hsaves : layout.savesRecord = true) (h : layout.Opens s t) : layout.Enters s t where
  stackPointer := by
    rw [h.stackPointer, h.framePointer, State.pushed, State.set_regs_self, totalSize, if_pos hsaves,
      BitVec.sub_sub, saveSlotSize, Nat.add_comm, BitVec.ofNat_add]
  framePointer _ := by rw [h.stackPointer, BitVec.sub_add_cancel]
  record _ := by
    rw [h.framePointer]
    exact State.load_record fun a _ => congrFun h.mem a
  only := by
    refine ⟨fun reg hreg => ?_, fun a ha => ?_⟩
    · simp only [hsaves, true_and, not_or] at hreg
      exact h.other reg hreg.2.2 hreg.1 hreg.2.1
    · simp only [hsaves, true_and, Nat.not_lt, h.framePointer] at ha
      exact (congrFun h.mem a).trans ((s.pushPair_sunk _ _).byte a ha)

theorem Opens.keeps (hsaves : layout.savesRecord = true) (h : layout.Opens s t)
    (hu : layout.Resumes t u) : layout.Keeps s u where
  framePointer := hu.framePointer.trans h.framePointer
  stackPointer := by rw [hu.stackPointer, hu.framePointer, h.stackPointer]
  record a ha := by
    rw [hu.record hsaves a (by rwa [h.framePointer]), h.mem]

/-- The prologue enters the frame, and the epilogue without its last line leaves it. -/
theorem exec_prologue_close (symbol : Label → Word) (highWater : Nat) (calls : Bool)
    (haligned : s.StackAligned) :
    let layout := ofHighWater highWater calls
    ∃ t, layout.prologue.exec symbol s = some t ∧ layout.Enters s t ∧
      ∀ u, layout.Resumes t u → ∃ v, layout.close.exec symbol u = some v ∧ Closes s u v := by
  intro layout
  cases hsaves : layout.savesRecord with
  | true =>
    obtain ⟨t, ht, hopens⟩ := Code.exec_of_ensures (ensures_prologue hsaves haligned)
    exact ⟨t, ht, hopens.enters hsaves, fun u hu =>
      Code.exec_of_ensures (ensures_close hsaves haligned (hopens.keeps hsaves hu))⟩
  | false =>
    have hbare := bare rfl hsaves
    refine ⟨s, by rw [hbare.prologue, Code.exec], ⟨?_, ?_, ?_, .refl _ _ s⟩, fun u hu => ?_⟩
    · rw [hbare.totalSize, BitVec.sub_zero]
    · exact fun h => absurd (hsaves.symm.trans h) (by decide)
    · exact fun h => absurd (hsaves.symm.trans h) (by decide)
    · exact ⟨u, by rw [hbare.close, Code.exec], hu.stackPointer, hu.framePointer, hu.linkRegister hsaves,
        fun _ _ _ _ _ => rfl, rfl⟩

/-- Prologue and epilogue are inverse for every size of the frame. -/
theorem epilogue_undoes_prologue {highWater : Nat} (h : highWater < 2 ^ 63) (calls : Bool)
    {layout : FrameLayout} (hlayout : layout = ofHighWater highWater calls) :
    IsLeast {size | 16 ∣ size ∧ highWater ≤ size} layout.localsSize ∧
    BitVec.ofNat 64 layout.localsSize = (BitVec.ofNat 64 highWater + 15#64) &&& ~~~15#64 ∧
    16 ∣ layout.totalSize ∧ layout.totalSize < 2 ^ 64 ∧
    ∀ (image : Image) (start finish : Nat) (s : State), image.At start layout.prologue →
      image.At finish layout.epilogue → s.StackAligned →
      ∃ t, image.after layout.prologue.length ⟨start, s⟩ = some ⟨start + layout.prologue.length, t⟩ ∧
        layout.Enters s t ∧
        ∀ u, layout.Resumes t u → ∃ v, Closes s u v ∧
          image.after layout.epilogue.length ⟨finish, u⟩ = some ⟨(s.regs .linkRegister).toNat, v⟩ := by
  subst hlayout
  refine ⟨isLeast_localsSize highWater calls, ofNat_alignUp_16 h, dvd_totalSize highWater calls,
    totalSize_lt h calls, fun image start finish s hstart hfinish haligned => ?_⟩
  obtain ⟨t, hprologue, henters, hback⟩ := exec_prologue_close image.symbol highWater calls haligned
  refine ⟨t, Image.after_of_exec hstart hprologue 0, henters, fun u hu => ?_⟩
  obtain ⟨v, hclose, hcloses⟩ := hback u hu
  refine ⟨v, hcloses, ?_⟩
  rw [← hcloses.linkRegister]
  exact Image.after_of_exec_ret hfinish hclose

/-- A frame whose size is built in x16, in a function that overwrites the link register. -/
theorem epilogue_undoes_prologue_5001 :
    let layout := ofHighWater 5001 false
    let image : Image := ⟨layout.prologue ++ layout.epilogue, fun _ => 0⟩
    let s : State := ⟨fun reg => if reg = .stackPointer then 65536 else .ofNat 64 reg.number, fun _ => 7,
      .compare 0 0⟩
    layout.localsSize = 5008 ∧ layout.totalSize = 5024 ∧ ∃ t v,
      image.after 4 ⟨0, s⟩ = some ⟨4, t⟩ ∧ t.regs .stackPointer = 60512 ∧ t.regs .framePointer = 65520 ∧
      image.after 4 ⟨4, t.set .linkRegister 0⟩ = some ⟨30, v⟩ ∧ v.regs .stackPointer = 65536 ∧
      v.regs .framePointer = 29 ∧ v.regs .linkRegister = 30 := by
  intro layout image s
  have hsaves : layout.savesRecord = true := by decide
  have hprologue : layout.prologue.length = 4 := by decide
  have hepilogue : layout.epilogue.length = 4 := by decide
  have hstart : image.At 0 layout.prologue := List.prefix_append _ _
  have hfinish : image.At 4 layout.epilogue := ⟨[], by decide⟩
  have haligned : s.StackAligned := by decide
  obtain ⟨-, -, -, -, hruns⟩ := epilogue_undoes_prologue (by decide : 5001 < 2 ^ 63) false (rfl : layout = _)
  obtain ⟨t, ht, henters, hback⟩ := hruns image 0 4 s hstart hfinish haligned
  obtain ⟨v, hcloses, hv⟩ := hback (t.set .linkRegister 0)
    ⟨rfl, rfl, fun _ _ _ => rfl, fun h => absurd (hsaves.symm.trans h) (by decide)⟩
  rw [hprologue] at ht
  rw [hepilogue] at hv
  have hsp : t.regs .stackPointer = 60512 := henters.stackPointer.trans (by decide)
  have hfp : t.regs .framePointer = 65520 := by
    rw [henters.framePointer hsaves, hsp]
    decide
  exact ⟨by decide, by decide, t, v, ht, hsp, hfp, hv, hcloses.stackPointer, hcloses.framePointer,
    hcloses.linkRegister⟩

end FrameLayout

end ArmBackend
