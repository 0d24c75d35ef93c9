import ArmBackend.Proofs.Machine.Record
import ArmBackend.Proofs.Machine.Saves

/-!
# What straight-line code leaves alone

Straight-line code balances the stack pointer and keeps the frame pointer, the callee-saved registers and
every byte that it has no slot for, provided that what it calls does.
-/

namespace ArmBackend

/-! ## Every state on the way -/

namespace Code

variable {w : World} {Q : State → Prop} {code : Code} {s : State}

theorem Ensures.maintains_of_quiet {kept : Word → Prop} {mem : Word → Byte}
    (h : Ensures w code s Q) (hquiet : ∀ instr, Line.instr instr ∈ code → instr.Quiet)
    (hs : ∀ a, kept a → s.mem a = mem a) :
    Maintains w (fun t => ∀ a, kept a → t.mem a = mem a) code s
      fun t => (∀ a, kept a → t.mem a = mem a) ∧ Q t := by
  induction code generalizing s with
  | nil => exact ⟨hs, h⟩
  | cons line code ih =>
    cases line with
    | instr instr =>
      have hfirst := hquiet instr List.mem_cons_self
      obtain ⟨t, ht, -, hmem⟩ := hfirst.exec w.symbol s
      have hrest : ∀ {t}, instr.exec w.symbol s = some t → Ensures w code t Q →
          Maintains w (fun t => ∀ a, kept a → t.mem a = mem a) code t
            fun t => (∀ a, kept a → t.mem a = mem a) ∧ Q t := fun {t'} ht' hQ => by
        cases ht.symm.trans ht'
        exact ih hQ (fun other hother => hquiet other (List.mem_cons_of_mem _ hother))
          fun a ha => (congrFun hmem a).trans (hs a ha)
      refine ⟨hs, ?_⟩
      cases instr with
      | bl | svc => exact hfirst.elim
      | _ =>
        obtain ⟨u, hu, hQ⟩ := h
        exact ⟨u, hu, hrest hu hQ⟩
    | directive => exact h.elim
    | label => exact h.elim

end Code

/-! ## Steady states -/

/-- `t` is a state in which a function may go on that called another in state `s`, as far as the stack
pointer, the registers that functions keep and the bytes `kept` go. -/
structure Spares (kept : Word → Prop) (s t : State) : Prop where
  pointer : t.regs .stackPointer = s.regs .stackPointer
  reg : ∀ reg, Register.Kept reg → t.regs reg = s.regs reg
  byte : ∀ a, kept a → t.mem a = s.mem a

/-- The surroundings of a function whose callees and traps are not known: a call needs an aligned stack
and may do anything that spares the caller, and a trap may return anything. -/
def World.abi (symbol : Label → Word) (kept : Word → Prop) : World where
  symbol
  call _ s Q := s.StackAligned ∧ ∀ t, Spares kept s t → Q t
  trap s Q := ∀ v, Q (s.set .result v)
  call_mono hPQ h := ⟨h.1, fun t ht => hPQ t (h.2 t ht)⟩
  trap_mono hPQ h := fun v => hPQ _ (h v)

/-- `t` is as `p`, with the stack pointer `depth` bytes further down, as far as the registers that
functions keep, the link register and the bytes `kept` go. -/
structure Steady (kept : Word → Prop) (calls : Prop) (depth : Nat) (p t : State) : Prop where
  pointer : t.regs .stackPointer = p.regs .stackPointer - .ofNat 64 depth
  reg : ∀ reg, Register.Kept reg → t.regs reg = p.regs reg
  link : ¬ calls → t.regs .linkRegister = p.regs .linkRegister
  byte : ∀ a, kept a → t.mem a = p.mem a

/-- Neither stores into slots that satisfy `writes` nor pushes below the stack pointer of `p` reach the
bytes `kept`. Where calls are made the stack is aligned. -/
structure Clear (kept : Word → Prop) (calls : Prop) (writes : Int → Ty → Prop) (p : State) : Prop where
  store : ∀ {offset ty}, writes offset ty → ∀ a, kept a →
    ¬ Reservation.Covers (p.regs .framePointer) ⟨.slot offset, ty⟩ a
  push : calls → ∀ a, kept a →
    below (p.regs .stackPointer) a = 0 ∨ 64 < below (p.regs .stackPointer) a
  aligned : calls → p.StackAligned

namespace Steady

variable {kept : Word → Prop} {calls : Prop} {writes : Int → Ty → Prop} {depth : Nat} {p s t : State}
  {symbol : Label → Word}

theorem refl (kept : Word → Prop) (calls : Prop) (p : State) : Steady kept calls 0 p p :=
  ⟨(BitVec.sub_zero _).symm, fun _ _ => rfl, fun _ => rfl, fun _ _ => rfl⟩

theorem aligned (h : Steady kept calls depth p s) (haligned : p.StackAligned)
    (hdepth : depth % 16 = 0) : s.StackAligned := by
  have := (p.regs .stackPointer).isLt
  rw [State.StackAligned] at haligned ⊢
  rw [h.pointer, BitVec.toNat_sub, BitVec.toNat_ofNat]
  omega

theorem volatile (h : Steady kept calls depth p s)
    (hregs : ∀ reg, ¬ reg.Volatile → t.regs reg = s.regs reg)
    (hmem : ∀ a, kept a → t.mem a = s.mem a) : Steady kept calls depth p t where
  pointer := (hregs .stackPointer id).trans h.pointer
  reg reg hreg := (hregs reg hreg.not_volatile).trans (h.reg reg hreg)
  link hcalls := (hregs .linkRegister id).trans (h.link hcalls)
  byte a ha := (hmem a ha).trans (h.byte a ha)

theorem set (h : Steady kept calls depth p s) {reg : Register} (hreg : reg.Volatile) (v : Word) :
    Steady kept calls depth p (s.set reg v) :=
  h.volatile (fun _ hother => s.set_regs_ne v fun heq => hother (heq ▸ hreg)) fun _ _ => rfl

/-! ## Pushes and pops -/

theorem pushed (h : Steady kept calls depth p s) (hregs : t.regs = s.pushed.regs)
    (hmem : ∀ a, kept a → t.mem a = s.mem a) : Steady kept calls (depth + 16) p t where
  pointer := by
    rw [hregs, State.pushed, State.set_regs_self, h.pointer, BitVec.ofNat_add]
    generalize BitVec.ofNat 64 depth = d
    rw [BitVec.sub_sub]
  reg reg hreg := by
    refine Eq.trans ?_ (h.reg reg hreg)
    rw [hregs]
    exact State.set_regs_ne s _ hreg.ne_stackPointer
  link hcalls := by
    rw [hregs]
    exact (State.set_regs_ne s _ (by decide)).trans (h.link hcalls)
  byte a ha := (hmem a ha).trans (h.byte a ha)

theorem push_mem (h : Steady kept calls depth p s) (hdepth : depth + 16 ≤ 64) {v a : Word}
    (ha : below (p.regs .stackPointer) a = 0 ∨ 64 < below (p.regs .stackPointer) a) :
    (s.push v).mem a = s.mem a := by
  have hp := (p.regs .stackPointer).isLt
  have ha' := a.isLt
  refine if_neg fun hb => ?_
  simp only [State.pushed, State.set_regs_self, h.pointer, Width.bytes, wordSize, below, BitVec.toNat_sub,
    BitVec.toNat_ofNat] at hb ha
  omega

theorem pushPair_mem (h : Steady kept calls depth p s) (hdepth : depth + 16 ≤ 64) {v v' a : Word}
    (ha : below (p.regs .stackPointer) a = 0 ∨ 64 < below (p.regs .stackPointer) a) :
    (s.pushPair v v').mem a = s.mem a := by
  have hp := (p.regs .stackPointer).isLt
  have ha' := a.isLt
  refine (if_neg fun hb => ?_).trans (h.push_mem hdepth ha)
  simp only [State.pushed, State.set_regs_self, h.pointer, Width.bytes, wordSize, below, BitVec.toNat_sub,
    BitVec.toNat_add, BitVec.toNat_ofNat] at hb ha
  omega

theorem saveRegs (hclear : Clear kept calls writes p) (hcalls : calls) {regs : List Register}
    (h : Steady kept calls depth p s) (haligned : depth % 16 = 0)
    (hdepth : depth + saveSize regs.length ≤ 64) :
    Code.Maintains (.abi symbol kept) (fun t => ∀ a, kept a → t.mem a = p.mem a) (Code.saveRegs regs) s
      (Steady kept calls (depth + saveSize regs.length) p) := by
  have hpush := hclear.push hcalls
  induction regs using Code.pushes.induct generalizing depth s with
  | case1 => exact h
  | case2 reg =>
    rw [List.length_singleton, saveSize_one] at hdepth ⊢
    refine ⟨h.byte, s.push (s.regs reg), if_pos (h.aligned (hclear.aligned hcalls) haligned), ?_⟩
    exact h.pushed (t := s.push _) rfl fun a ha => h.push_mem hdepth (hpush a ha)
  | case3 first second regs ih =>
    rw [List.length_cons, List.length_cons, saveSize_succ_succ, ← Nat.add_assoc] at hdepth ⊢
    refine ⟨h.byte, s.pushPair (s.regs first) (s.regs second),
      if_pos (h.aligned (hclear.aligned hcalls) haligned), ih ?_ (by omega) hdepth⟩
    exact h.pushed (t := s.pushPair _ _) rfl fun a ha => h.pushPair_mem (by omega) (hpush a ha)

theorem popped (h : Steady kept calls (depth + 16) p s) : Steady kept calls depth p s.popped where
  pointer := by
    rw [State.popped, State.set_regs_self, h.pointer, BitVec.ofNat_add]
    generalize BitVec.ofNat 64 depth = d
    rw [← BitVec.sub_sub]
    exact BitVec.sub_add_cancel _ _
  reg reg hreg := (State.set_regs_ne s _ hreg.ne_stackPointer).trans (h.reg reg hreg)
  link hcalls := (State.set_regs_ne s _ (by decide)).trans (h.link hcalls)
  byte a ha := h.byte a ha

theorem restoreRegs (hclear : Clear kept calls writes p) (hcalls : calls) {regs : List Register}
    (hregs : ∀ reg ∈ regs, reg.Volatile) (haligned : depth % 16 = 0)
    (h : Steady kept calls (depth + saveSize regs.length) p s) :
    Code.Maintains (.abi symbol kept) (fun t => ∀ a, kept a → t.mem a = p.mem a)
      (Code.restoreRegs regs) s (Steady kept calls depth p) := by
  induction regs using Code.pops.induct generalizing depth s with
  | case1 => exact h
  | case2 reg =>
    rw [List.length_singleton, saveSize_one] at h
    have haligned' : s.StackAligned := h.aligned (hclear.aligned hcalls) (by omega)
    exact ⟨h.byte, _, if_pos haligned', h.popped.set (hregs reg List.mem_cons_self) _⟩
  | case3 first second regs ih =>
    rw [List.length_cons, List.length_cons, saveSize_succ_succ, ← Nat.add_assoc] at h
    rw [Code.restoreRegs, Code.pops, Code.ofInstrs, List.map_append, Code.maintains_append]
    refine (ih (fun reg hreg => hregs reg (List.mem_cons_of_mem _ (List.mem_cons_of_mem _ hreg)))
      (by omega) h).mono (fun _ => id) fun t ht => ?_
    have haligned' : t.StackAligned := ht.aligned (hclear.aligned hcalls) (by omega)
    exact ⟨ht.byte, _, if_pos haligned', (ht.popped.set (hregs first List.mem_cons_self) _).set
      (hregs second (List.mem_cons_of_mem _ List.mem_cons_self)) _⟩

end Steady

namespace Code

variable {kept : Word → Prop} {calls : Prop} {writes : Int → Ty → Prop} {p s : State} {code : Code}

/-- Straight-line code keeps what is steady, and the bytes `kept` are the same all the way. -/
theorem Straight.steady (h : Straight calls writes code) (hclear : Clear kept calls writes p)
    (symbol : Label → Word) (hs : Steady kept calls 0 p s) :
    Maintains (.abi symbol kept) (fun t => ∀ a, kept a → t.mem a = p.mem a) code s
      (Steady kept calls 0 p) := by
  induction h generalizing s with
  | nil => exact hs
  | @quiet instr h =>
    obtain ⟨t, ht, hregs, hmem⟩ := h.exec symbol s
    have hsteady := hs.volatile hregs fun a _ => congrFun hmem a
    refine ⟨hs.byte, ?_⟩
    cases instr with
    | bl | svc => exact h.elim
    | _ => exact ⟨t, ht, hsteady⟩
  | @store src offset ty h =>
    obtain ⟨v, hv⟩ := ensures_storeSlot (w := .abi symbol kept) src offset ty s
    have hfp : s.regs .framePointer = p.regs .framePointer := hs.reg _ (Or.inl rfl)
    have hensures : Ensures (.abi symbol kept) (storeSlot src offset ty) s (Steady kept calls 0 p) := by
      rw [hv]
      refine (hs.set (volatile_storeVia src) v).volatile (fun _ _ => rfl) fun a ha =>
        if_neg fun hb => ?_
      rw [hfp] at hb
      exact hclear.store h a ha hb
    rw [storeSlot_eq, ensures_append] at hensures
    rw [storeSlot_eq, maintains_append]
    exact (hensures.maintains_of_quiet (quiet_slotAddress (volatile_storeVia src) offset) hs.byte).mono
      (fun _ => id) fun t ht => ht
  | @call label live hcalls hlive =>
    have hlength : saveSize live.length ≤ 64 := by
      have hle : live.length ≤ 8 := hlive.length_le
      simp only [saveSize, saveSlotSize]
      omega
    have haligned : (0 + saveSize live.length) % 16 = 0 := by
      simp only [saveSize, saveSlotSize]
      omega
    rw [maintains_append, maintains_append]
    refine (hs.saveRegs hclear hcalls (Nat.zero_mod _) (by omega)).mono (fun _ => id) fun t ht => ?_
    refine ⟨ht.byte, ht.aligned (hclear.aligned hcalls) haligned, fun u hu => ?_⟩
    have hsteady : Steady kept calls (0 + saveSize live.length) p u :=
      ⟨hu.pointer.trans ht.pointer, fun reg hreg => (hu.reg reg hreg).trans (ht.reg reg hreg),
        fun hnot => absurd hcalls hnot, fun a ha => (hu.byte a ha).trans (ht.byte a ha)⟩
    exact Steady.restoreRegs hclear hcalls
      (fun reg hreg => Register.volatile_of_tempBank (hlive.subset hreg)) (Nat.zero_mod _) hsteady
  | trap imm => exact ⟨hs.byte, fun v => hs.set (show Register.result.Volatile from trivial) v⟩
  | append _ _ iha ihb =>
    rw [maintains_append]
    exact (iha hs).mono (fun _ => id) fun t ht => ihb ht

end Code

end ArmBackend
