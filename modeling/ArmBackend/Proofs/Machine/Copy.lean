import ArmBackend.Proofs.Machine.Trace
import ArmBackend.Proofs.Machine.Transfer

/-!
# Copies between any two places

A copy takes the value of any register or slot to any other, whatever their widths and however far the
slots lie from the frame pointer. A register that it copies from is never used for an address.
-/

namespace ArmBackend

/-- A register that values may be moved through, or a slot below the frame pointer. -/
def Location.Movable : Location → Prop
  | .reg r => r ≠ .stackPointer ∧ r ≠ .framePointer
  | .slot offset => 0 < offset
  | .unassigned => False

/-- The reservation holds a value of one or eight bytes. -/
def Reservation.Movable (res : Reservation) : Prop :=
  res.location.Movable ∧ res.ty.storable = true

namespace Code

variable {w : World} {s : State}

/-- The outcome of a copy: the target holds what it keeps of the source's value, nothing else has
changed apart from the registers that the target spoils, and a register copied from still holds the
value. -/
structure Copied (source target : Reservation) (s t : State) : Prop where
  put : Put target (s.read source) s t
  source : ∀ reg, source.location = .reg reg → t.regs reg = s.regs reg

/-- Only a place that has been assigned can be copied from or into. -/
theorem copy_fails_iff (source target : Reservation) :
    (∃ error, copy source target = .error error) ↔
      source.location ≠ target.location ∧
        (source.location = .unassigned ∨ target.location = .unassigned) := by
  obtain ⟨source, sourceTy⟩ := source
  obtain ⟨target, targetTy⟩ := target
  simp only [copy, Reservation.sameStorage, beq_iff_eq]
  split
  case isTrue heq => simp [heq]
  case isFalse hne => cases source <;> cases target <;> simp_all

theorem copy_self {source target : Reservation} (h : source.location = target.location) :
    copy source target = .ok [] := by
  rw [copy, Reservation.sameStorage, h, if_pos (beq_self_eq_true _)]

theorem ensures_storeSlot_copied (src : Register) (sourceTy : Ty) (offset : Int) (ty : Ty) :
    Ensures w (storeSlot src offset ty) s (Copied ⟨.reg src, sourceTy⟩ ⟨.slot offset, ty⟩ s) := by
  have hput := ensures_storeSlot_put (w := w) (s := s) src offset ty
  obtain ⟨v, hv⟩ := ensures_storeSlot (w := w) src offset ty s
  rw [hv] at hput ⊢
  refine ⟨hput, ?_⟩
  rintro reg ⟨⟩
  rw [State.store_regs, State.set_regs_ne s v (storeVia_ne src)]

theorem ensures_copied {source target : Reservation} {code : Code}
    (h : copy source target = .ok code) (hfp : target.location ≠ .reg .framePointer)
    (hne : source.location ≠ target.location) :
    Ensures w code s (Copied source target s) := by
  have hput := ensures_copy (w := w) (s := s) h hfp fun offset hs ht => hne (hs.trans ht.symm)
  obtain ⟨source, sourceTy⟩ := source
  obtain ⟨target, targetTy⟩ := target
  cases source with
  | unassigned => exact hput.mono fun t ht => ⟨ht, nofun⟩
  | slot offset => exact hput.mono fun t ht => ⟨ht, nofun⟩
  | reg src =>
    cases target with
    | unassigned => exact hput.mono fun t ht => ⟨ht, fun reg _ => ht.only.reg reg nofun⟩
    | reg dst =>
      refine hput.mono fun t ht => ⟨ht, fun reg hreg => ht.only.reg reg fun hspoils => hne ?_⟩
      exact hreg.trans (congrArg Location.reg hspoils)
    | slot offset =>
      rw [copy, Reservation.sameStorage, if_neg (by simp)] at h
      cases h
      exact ensures_storeSlot_copied src sourceTy offset targetTy

/-- Copying emits nothing between equal places, fails exactly where one of two different places is
unassigned, and otherwise moves the value: whatever registers and slots are copied between, also where
the slots overlap or are out of direct reach. -/
theorem exec_copy (symbol : Label → Word) (source target : Reservation) (s : State) :
    (source.location = target.location → copy source target = .ok []) ∧
    ((∃ error, copy source target = .error error) ↔
      source.location ≠ target.location ∧
        (source.location = .unassigned ∨ target.location = .unassigned)) ∧
    (source.Movable → target.Movable → source.location ≠ target.location →
      ∃ code t, copy source target = .ok code ∧ code.exec symbol s = some t ∧
        Copied source target s t) := by
  refine ⟨copy_self, copy_fails_iff source target, fun hsource htarget hne => ?_⟩
  cases hcopy : copy source target with
  | error error =>
    obtain ⟨-, hnone | hnone⟩ := (copy_fails_iff source target).mp ⟨error, hcopy⟩
    · exact (hnone ▸ hsource.1 : Location.unassigned.Movable).elim
    · exact (hnone ▸ htarget.1 : Location.unassigned.Movable).elim
  | ok code =>
    have hfp : target.location ≠ .reg .framePointer := fun hloc =>
      (hloc ▸ htarget.1 : Location.Movable (.reg .framePointer)).2 rfl
    obtain ⟨t, ht, hcopied⟩ := exec_of_ensures (ensures_copied hcopy hfp hne)
    exact ⟨code, t, rfl, ht, hcopied⟩

/-- A byte slot 5000 bytes below the frame pointer receives the low byte of x17, which also is the
register for addresses of slots. -/
theorem exec_copy_far_byte :
    let s : State := ⟨fun reg => if reg = .operand then 0x1234 else 8192, fun _ => 0, .compare 0 0⟩
    ∃ code t, copy (.ofReg .int .operand) ⟨.slot 5000, .char⟩ = .ok code ∧
      code.exec (fun _ => 0) s = some t ∧ t.read ⟨.slot 5000, .char⟩ = 0x34 ∧ t.mem 3193 = 0 ∧
      t.regs .operand = 0x1234 := by
  intro s
  obtain ⟨code, t, hcode, ht, hcopied⟩ :=
    (exec_copy (fun _ => 0) (.ofReg .int .operand) ⟨.slot 5000, .char⟩ s).2.2
      ⟨⟨by decide, by decide⟩, rfl⟩ ⟨(by decide : (0 : Int) < 5000), rfl⟩ nofun
  have hlow : Width.low .byte 0x1234 = 0x34 := by decide
  refine ⟨code, t, hcode, ht, hcopied.put.read.trans hlow, hcopied.put.only.byte 3193 ?_,
    hcopied.source _ rfl⟩
  change ¬ (3193 - (8192 - BitVec.ofInt 64 5000)).toNat < 1
  decide

end Code

end ArmBackend
