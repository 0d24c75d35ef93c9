import ArmBackend.FrameLayout
import ArmBackend.Proofs.Machine.Record
import Mathlib.Order.Basic
import Mathlib.Tactic.Order

/-!
# How code reaches into the frame

Code whose accesses through the frame pointer stay in a frame of a given size, and whose immediates fit
their fields. A slot far from the frame pointer is reached through an address that is built first. An address
that is a value is that of a slot that a name stands for, or of an array of the source: all of the slot or of
the array lies in the frame.
-/

namespace ArmBackend

theorem Register.volatile_pair {a b : Register} (ha : a.Volatile) (hb : b.Volatile) :
    ∀ reg ∈ [a, b], reg.Volatile :=
  List.forall_mem_cons.mpr ⟨ha, List.forall_mem_singleton.mpr hb⟩

def Address.register : Address → Register
  | .frame _ => .framePointer
  | .base reg => reg

namespace Instr

def registers : Instr → List Register
  | .mov dst src | .addImm dst src _ | .subImm dst src _ | .addImmPages dst src _
  | .subImmPages dst src _ | .neg dst src | .cneg dst src _ | .mvn dst src | .maskByte dst src
  | .addPageOffset dst src _ => [dst, src]
  | .movImm dst _ | .movk dst _ _ | .cset dst _ | .adrp dst _ => [dst]
  | .arith _ dst lhs rhs | .udiv dst lhs rhs => [dst, lhs, rhs]
  | .msub dst lhs rhs acc => [dst, lhs, rhs, acc]
  | .cmp lhs rhs => [lhs, rhs]
  | .load _ reg address | .store _ reg address => [reg, address.register]
  | .pushPair first second | .popPair first second => [first, second]
  | .push reg | .pop reg | .cmpImm reg _ | .cbnz reg _ => [reg]
  | .b _ | .bCond .. | .bl _ | .svc _ | .ret => []

def access? : Instr → Option (Width × Address)
  | .load width _ address | .store width _ address => some (width, address)
  | _ => none

/-- Whether the immediates fit their fields. -/
def Encodable : Instr → Prop
  | .movImm _ imm | .svc imm => imm ≤ 65535
  | .movk _ chunk shift => chunk ≤ 65535 ∧ shift ∈ [16, 32, 48]
  | .addImm _ _ imm | .subImm _ _ imm | .addImmPages _ _ imm | .subImmPages _ _ imm
  | .cmpImm _ imm => imm ≤ 4095
  | .load _ _ (.frame offset) | .store _ _ (.frame offset) => 1 ≤ offset ∧ offset ≤ 256
  | _ => True

structure Plain (instr : Instr) : Prop where
  encodable : instr.Encodable
  framePointer : .framePointer ∉ instr.registers

theorem encodable_of_access {instr : Instr} {width : Width} {reg : Register}
    (h : instr.access? = some (width, .base reg)) : instr.Encodable := by
  cases instr <;> cases h <;> trivial

theorem encodable_of_direct {instr : Instr} {width : Width} {offset : Int}
    (h : instr.access? = some (width, .frame offset)) (hlow : 1 ≤ offset) (hhigh : offset ≤ 256) :
    instr.Encodable := by
  cases instr <;> cases h <;> exact ⟨hlow, hhigh⟩

theorem Plain.not_direct {instr : Instr} {width : Width} {offset : Int} (h : instr.Plain)
    (haccess : instr.access? = some (width, .frame offset)) : False := by
  refine h.framePointer ?_
  cases instr <;> cases haccess <;> exact List.mem_cons_of_mem _ List.mem_cons_self

theorem Plain.of_volatile {instr : Instr} (hencodable : instr.Encodable)
    (h : ∀ reg ∈ instr.registers, reg.Volatile) : instr.Plain := ⟨hencodable, fun hmem => h _ hmem⟩

end Instr

/-- Whether `bytes` bytes, from `offset` below the frame pointer upward, lie in a frame of `size`
bytes. -/
structure Inside (size bytes offset : Nat) : Prop where
  pos : 0 < bytes
  high : bytes ≤ offset
  low : offset ≤ size

theorem Inside.mono {size size' bytes offset : Nat} (h : Inside size bytes offset) (hsize : size ≤ size') :
    Inside size' bytes offset := ⟨h.pos, h.high, Nat.le_trans h.low hsize⟩

theorem Inside.size_pos {size bytes offset : Nat} (h : Inside size bytes offset) : 0 < size :=
  Nat.lt_of_lt_of_le h.pos (Nat.le_trans h.high h.low)

/-- The size of a frame, and the slots in it that names stand for. -/
structure Reach where
  size : Nat
  named : List Slot

namespace Reach

instance : Preorder Reach where
  le a b := a.size ≤ b.size ∧ a.named ⊆ b.named
  le_refl a := ⟨Nat.le_refl _, List.Subset.refl _⟩
  le_trans _ _ _ hab hbc := ⟨Nat.le_trans hab.1 hbc.1, List.Subset.trans hab.2 hbc.2⟩

end Reach

def Slot.Inside (reach : Reach) (slot : Slot) : Prop :=
  ArmBackend.Inside reach.size slot.ty.size slot.offset

theorem Slot.Inside.mono {reach reach' : Reach} {slot : Slot} (h : slot.Inside reach)
    (hle : reach ≤ reach') : slot.Inside reach' := ArmBackend.Inside.mono h hle.1

theorem Slot.Inside.width {reach : Reach} {slot : Slot} (h : slot.Inside reach) :
    ArmBackend.Inside reach.size slot.ty.width.bytes slot.offset := Ty.width_bytes h.pos ▸ h

inductive Reservation.Housed (reach : Reach) : Reservation → Prop
  | register (ty : Ty) {reg : Register} (volatile : reg.Volatile) : Housed reach (.ofReg ty reg)
  | slot {slot : Slot} (inside : slot.Inside reach) : Housed reach slot.reservation

namespace Reservation.Housed

variable {reach reach' : Reach} {res : Reservation}

theorem mono (h : res.Housed reach) (hle : reach ≤ reach') : res.Housed reach' := by
  cases h with
  | register ty hreg => exact .register ty hreg
  | slot hinside => exact .slot (hinside.mono hle)

theorem staging (h : res.Housed reach) : res.stagingRegister.Volatile := by
  cases h with
  | register ty hreg => exact hreg
  | slot => trivial

theorem inRegister (_ : res.Housed reach) {reg : Register} (h : reg.Volatile) :
    (res.inRegister reg).Housed reach := .register _ h

end Reservation.Housed

namespace Code

variable {arrays : List (Ty × Nat)} {reach reach' : Reach} {code : Code} {dst src : Register} {instr : Instr}

/-- Code that names the frame pointer only to reach places in the frame, and whose immediates fit. Of the
arrays in the source, the type and the number of elements are known. -/
inductive Framed (arrays : List (Ty × Nat)) (reach : Reach) : Code → Prop
  | nil : Framed arrays reach []
  | plain {line : Line} (h : ∀ instr, line = .instr instr → instr.Plain) : Framed arrays reach [line]
  /-- A load or store of bytes near the frame pointer. -/
  | direct {instr : Instr} {width : Width} {offset : Nat}
      (access : instr.access? = some (width, .frame offset)) (near : offset ≤ 256)
      (inside : Inside reach.size width.bytes offset) : Framed arrays reach (ofInstrs [instr])
  /-- A load or store through an address that is computed before it. -/
  | through {via : Register} {instr : Instr} {width : Width} {offset : Nat}
      (access : instr.access? = some (width, .base via)) (inside : Inside reach.size width.bytes offset) :
      Framed arrays reach (frameAddress via offset ++ ofInstrs [instr])
  /-- The address of a variable. -/
  | address (dst : Register) {slot : Slot} (named : slot ∈ reach.named) (inside : slot.Inside reach) :
      Framed arrays reach (frameAddress dst slot.offset)
  /-- The address of the first element of an array, all of which lies in the frame. -/
  | elements (dst : Register) {ty elementTy : Ty} {count offset : Nat} (literal : (ty, count) ∈ arrays)
      (element : ty.pointee? = some elementTy) (inside : Inside reach.size (count * elementTy.size) offset) :
      Framed arrays reach (frameAddress dst offset)
  | append {a b : Code} (ha : Framed arrays reach a) (hb : Framed arrays reach b) :
      Framed arrays reach (a ++ b)

/-! ## Lines of framed code -/

theorem mem_constant {bits : Word} (h : Line.instr instr ∈ constant dst bits) :
    (∃ imm ≤ 65535, instr = .movImm dst imm) ∨
      ∃ chunk ≤ 65535, ∃ shift ∈ [16, 32, 48], instr = .movk dst chunk shift := by
  have hchunk : ∀ shift, bits.chunk shift ≤ 65535 := fun shift =>
    Nat.le_of_lt_succ (bits.extractLsb' shift 16).isLt
  rcases List.mem_cons.mp (mem_ofInstrs.mp h) with rfl | h
  · exact Or.inl ⟨_, hchunk 0, rfl⟩
  · obtain ⟨shift, hmem, hshift⟩ := List.mem_filterMap.mp h
    split at hshift <;> cases hshift
    exact Or.inr ⟨_, hchunk shift, shift, hmem, rfl⟩

theorem encodable_constant {bits : Word} (h : Line.instr instr ∈ constant dst bits) : instr.Encodable := by
  rcases mem_constant h with ⟨imm, hle, rfl⟩ | ⟨chunk, hle, shift, hshift, rfl⟩
  · exact hle
  · exact ⟨hle, hshift⟩

theorem mem_frameAddress {offset : Int} (h : Line.instr instr ∈ frameAddress dst offset) :
    (∃ imm ≤ 4095, imm = (BitVec.ofInt 64 offset).toNat ∧ instr = .subImm dst .framePointer imm) ∨
      Line.instr instr ∈ constant dst (BitVec.ofInt 64 offset) ∨
      instr = .arith .sub dst .framePointer dst := by
  simp only [frameAddress] at h
  split at h
  case isTrue hnear => exact Or.inl ⟨_, hnear, rfl, List.mem_singleton.mp (mem_ofInstrs.mp h)⟩
  case isFalse =>
    rcases List.mem_append.mp h with h | h
    · exact Or.inr (Or.inl h)
    · exact Or.inr (Or.inr (List.mem_singleton.mp (mem_ofInstrs.mp h)))

theorem encodable_frameAddress {offset : Int} (h : Line.instr instr ∈ frameAddress dst offset) :
    instr.Encodable := by
  rcases mem_frameAddress h with ⟨imm, hle, -, rfl⟩ | h | rfl
  · exact hle
  · exact encodable_constant h
  · trivial

theorem access_frameAddress {offset : Int} (h : Line.instr instr ∈ frameAddress dst offset) :
    instr.access? = none := by
  rcases mem_frameAddress h with ⟨_, -, -, rfl⟩ | h | rfl
  · rfl
  · rcases mem_constant h with ⟨_, -, rfl⟩ | ⟨_, -, _, -, rfl⟩ <;> rfl
  · rfl

theorem subImm_of_frameAddress {via : Register} {offset imm : Nat} (hoffset : offset < 2 ^ 64)
    (h : Line.instr (.subImm dst .framePointer imm) ∈ frameAddress via offset) : imm = offset := by
  rcases mem_frameAddress h with ⟨imm', -, himm, heq⟩ | h | heq
  · cases heq
    rw [himm, BitVec.ofInt_natCast, BitVec.toNat_ofNat, Nat.mod_eq_of_lt hoffset]
  · rcases mem_constant h with ⟨_, -, heq⟩ | ⟨_, -, _, -, heq⟩ <;> cases heq
  · cases heq

namespace Framed

theorem encodable (h : Framed arrays reach code) : ∀ instr, Line.instr instr ∈ code → instr.Encodable := by
  induction h with
  | nil => exact fun _ hmem => absurd hmem List.not_mem_nil
  | plain h =>
    intro instr hmem
    exact (h instr (List.mem_singleton.mp hmem).symm).encodable
  | direct access near inside =>
    intro instr hmem
    obtain rfl := List.mem_singleton.mp (mem_ofInstrs.mp hmem)
    have := inside.pos
    have := inside.high
    exact Instr.encodable_of_direct access (by omega) (by omega)
  | through access inside =>
    intro instr hmem
    rcases List.mem_append.mp hmem with hmem | hmem
    · exact encodable_frameAddress hmem
    · obtain rfl := List.mem_singleton.mp (mem_ofInstrs.mp hmem)
      exact Instr.encodable_of_access access
  | address | elements => exact fun _ => encodable_frameAddress
  | append _ _ iha ihb =>
    intro instr hmem
    exact (List.mem_append.mp hmem).elim (iha instr) (ihb instr)

theorem size_pos (h : Framed arrays reach code) :
    ∀ instr, Line.instr instr ∈ code → .framePointer ∈ instr.registers → 0 < reach.size := by
  induction h with
  | nil => exact fun _ hmem => absurd hmem List.not_mem_nil
  | plain h =>
    intro instr hmem hnamed
    exact absurd hnamed (h instr (List.mem_singleton.mp hmem).symm).framePointer
  | direct _ _ inside | through _ inside | elements _ _ _ inside => exact fun _ _ _ => inside.size_pos
  | address _ _ inside => exact fun _ _ _ => ArmBackend.Inside.size_pos inside
  | append _ _ iha ihb =>
    intro instr hmem
    exact (List.mem_append.mp hmem).elim (iha instr) (ihb instr)

theorem inside_of_access (h : Framed arrays reach code) {width : Width} {offset : Int} :
    ∀ instr, Line.instr instr ∈ code → instr.access? = some (width, .frame offset) →
      ∃ k : Nat, offset = k ∧ k ≤ 256 ∧ Inside reach.size width.bytes k := by
  induction h with
  | nil => exact fun _ hmem => absurd hmem List.not_mem_nil
  | plain h =>
    intro instr hmem haccess
    exact ((h instr (List.mem_singleton.mp hmem).symm).not_direct haccess).elim
  | direct access near inside =>
    intro instr hmem haccess
    obtain rfl := List.mem_singleton.mp (mem_ofInstrs.mp hmem)
    cases haccess.symm.trans access
    exact ⟨_, rfl, near, inside⟩
  | through access inside =>
    intro instr hmem haccess
    rcases List.mem_append.mp hmem with hmem | hmem
    · cases (access_frameAddress hmem).symm.trans haccess
    · obtain rfl := List.mem_singleton.mp (mem_ofInstrs.mp hmem)
      cases haccess.symm.trans access
  | address | elements =>
    intro instr hmem haccess
    cases (access_frameAddress hmem).symm.trans haccess
  | append _ _ iha ihb =>
    intro instr hmem
    exact (List.mem_append.mp hmem).elim (iha instr) (ihb instr)

theorem inside_of_subImm (h : Framed arrays reach code) (hsize : reach.size < 2 ^ 64) {imm : Nat} :
    Line.instr (.subImm dst .framePointer imm) ∈ code → 0 < imm ∧ imm ≤ reach.size := by
  have hreaches : ∀ {via : Register} {bytes offset : Nat}, Inside reach.size bytes offset →
      Line.instr (.subImm dst .framePointer imm) ∈ frameAddress via offset → 0 < imm ∧ imm ≤ reach.size := by
    intro via bytes offset hinside hmem
    have hpos := Nat.lt_of_lt_of_le hinside.pos hinside.high
    have hlow := hinside.low
    rw [subImm_of_frameAddress (by omega) hmem]
    exact ⟨hpos, hlow⟩
  induction h with
  | nil => exact fun hmem => absurd hmem List.not_mem_nil
  | plain h =>
    intro hmem
    have hnamed : Register.framePointer ∈ [dst, .framePointer] := List.mem_cons_of_mem _ List.mem_cons_self
    exact absurd hnamed (h _ (List.mem_singleton.mp hmem).symm).framePointer
  | direct access =>
    intro hmem
    rw [← List.mem_singleton.mp (mem_ofInstrs.mp hmem)] at access
    cases access
  | through access inside =>
    intro hmem
    rcases List.mem_append.mp hmem with hmem | hmem
    · exact hreaches inside hmem
    · rw [← List.mem_singleton.mp (mem_ofInstrs.mp hmem)] at access
      cases access
  | address _ _ inside | elements _ _ _ inside => exact hreaches inside
  | append _ _ iha ihb => exact fun hmem => (List.mem_append.mp hmem).elim iha ihb

theorem mono (h : Framed arrays reach code) (hle : reach ≤ reach') : Framed arrays reach' code := by
  induction h with
  | nil => exact .nil
  | plain h => exact .plain h
  | direct access near inside => exact .direct access near (inside.mono hle.1)
  | through access inside => exact .through access (inside.mono hle.1)
  | address dst named inside => exact .address dst (hle.2 named) (inside.mono hle)
  | elements dst literal element inside => exact .elements dst literal element (inside.mono hle.1)
  | append _ _ iha ihb => exact .append iha ihb

theorem plains {instrs : List Instr} (h : ∀ instr ∈ instrs, instr.Plain) :
    Framed arrays reach (ofInstrs instrs) := by
  induction instrs with
  | nil => exact .nil
  | cons instr instrs ih =>
    have hplain : Framed arrays reach [.instr instr] := .plain fun other hother => by
      cases hother
      exact h instr List.mem_cons_self
    exact .append hplain (ih fun other hother => h other (List.mem_cons_of_mem _ hother))

theorem one (h : instr.Plain) : Framed arrays reach (ofInstrs [instr]) :=
  .plains fun _ hmem => List.mem_singleton.mp hmem ▸ h

theorem label (label : Label) : Framed arrays reach [.label label] := .plain fun _ h => by cases h

end Framed

/-! ## Moves -/

theorem framed_constant (h : dst.Volatile) (bits : Word) : Framed arrays reach (constant dst bits) := by
  have hdst : ∀ reg ∈ [dst], reg.Volatile := List.forall_mem_singleton.mpr h
  refine .plains fun instr hinstr => ?_
  have hmem : Line.instr instr ∈ constant dst bits := mem_ofInstrs.mpr hinstr
  rcases mem_constant hmem with ⟨imm, hle, rfl⟩ | ⟨chunk, hle, shift, hshift, rfl⟩
  · exact .of_volatile hle hdst
  · exact .of_volatile ⟨hle, hshift⟩ hdst

theorem framed_move (hdst : dst.Volatile) (hsrc : src.Volatile) : Framed arrays reach (move dst src) := by
  rw [move]
  split
  · exact .nil
  · exact .one (.of_volatile trivial (Register.volatile_pair hdst hsrc))

theorem framed_labelAddress (h : dst.Volatile) (label : Label) :
    Framed arrays reach (labelAddress dst label) := by
  have hpage : (Instr.adrp dst label).Plain := .of_volatile trivial (List.forall_mem_singleton.mpr h)
  have hoffset : (Instr.addPageOffset dst dst label).Plain :=
    .of_volatile trivial (Register.volatile_pair h h)
  exact .plains (List.forall_mem_cons.mpr ⟨hpage, List.forall_mem_singleton.mpr hoffset⟩)

theorem framed_access {slot : Slot} (h : slot.Inside reach) {via : Register} (hvia : via ≠ .framePointer)
    (haccess : instr.access? = some (slot.ty.width, (slotAddress via slot.offset).2)) :
    Framed arrays reach ((slotAddress via slot.offset).1 ++ ofInstrs [instr]) := by
  rw [slotAddress] at haccess ⊢
  split at haccess
  case isTrue hnear =>
    rw [if_pos hnear]
    exact .direct haccess (Int.ofNat_le.mp hnear) h.width
  case isFalse hfar =>
    rw [if_neg hfar]
    exact .through haccess h.width

theorem framed_loadSlot {slot : Slot} (h : slot.Inside reach) (hdst : dst.Volatile) :
    Framed arrays reach (loadSlot dst slot.offset slot.ty) :=
  framed_access h (fun heq => by rw [heq] at hdst; exact hdst) rfl

theorem framed_storeSlot {slot : Slot} (h : slot.Inside reach) (src : Register) :
    Framed arrays reach (storeSlot src slot.offset slot.ty) :=
  framed_access h (storeVia_ne_framePointer src) rfl

theorem framed_copy {source target : Reservation} (h : copy source target = .ok code)
    (hsource : source.Housed reach) (htarget : target.Housed reach) : Framed arrays reach code := by
  have hstaging : Register.staging.Volatile := trivial
  rw [copy] at h
  split at h
  case isTrue =>
    cases h
    exact .nil
  case isFalse =>
    cases hsource with
    | register ty hsrc =>
      cases htarget with
      | register ty' hdst =>
        cases h
        exact framed_move hdst hsrc
      | slot hinside =>
        cases h
        exact framed_storeSlot hinside _
    | slot hinside =>
      cases htarget with
      | register ty' hdst =>
        cases h
        exact framed_loadSlot hinside hdst
      | slot hinside' =>
        cases h
        exact .append (framed_loadSlot hinside hstaging) (framed_storeSlot hinside' _)

theorem framed_putConstant {target : Reservation} {bits : Word}
    (h : putConstant target bits = .ok code) (htarget : target.Housed reach) : Framed arrays reach code := by
  cases htarget with
  | register ty hdst =>
    cases h
    exact framed_constant hdst bits
  | slot hinside =>
    cases h
    have hstaging : Register.staging.Volatile := trivial
    exact .append (framed_constant hstaging bits) (framed_storeSlot hinside _)

theorem framed_operandOf {res : Reservation} (h : operandOf res = .ok (code, src))
    (hres : res.Housed reach) : Framed arrays reach code ∧ src.Volatile := by
  cases hres with
  | register ty hreg =>
    cases h
    exact ⟨.nil, hreg⟩
  | slot hinside =>
    cases h
    have hoperand : Register.operand.Volatile := trivial
    exact ⟨framed_loadSlot hinside hoperand, hoperand⟩

theorem framed_truncate (h : dst.Volatile) (ty : Ty) : Framed arrays reach (truncate ty dst) := by
  rw [truncate]
  split
  · exact .one (.of_volatile trivial (Register.volatile_pair h h))
  · exact .nil

end Code

/-! ## Operators -/

open Code (Framed)

variable {arrays : List (Ty × Nat)} {reach : Reach} {target : Reservation} {code : Code}

theorem BinOp.framed_code {op : BinOp} {lhs rhs : Reservation} (h : op.code target lhs rhs = .ok code)
    (hlhs : lhs.Housed reach) (hrhs : rhs.Housed reach) (htarget : target.Housed reach) :
    Framed arrays reach code := by
  obtain ⟨setup, hsetup, h₁⟩ := StepM.outcome_bind_eq_ok.mp h
  obtain ⟨⟨load, src⟩, hload, h₂⟩ := StepM.outcome_bind_eq_ok.mp h₁
  obtain ⟨finish, hfinish, h₃⟩ := StepM.outcome_bind_eq_ok.mp h₂
  cases h₃
  have hdst := htarget.staging
  have hregister := htarget.inRegister hdst
  obtain ⟨hframed, hsrc⟩ := Code.framed_operandOf hload hrhs
  refine .append (.append (.append (.append (Code.framed_copy hsetup hlhs hregister) hframed) ?_)
    (Code.framed_truncate hdst _)) (Code.framed_copy hfinish hregister htarget)
  cases op with
  | arith op => exact .one (.of_volatile trivial (by simp [Instr.registers, hdst, hsrc]))
  | compare cond =>
    have hcmp : (Instr.cmp target.stagingRegister src).Plain :=
      .of_volatile trivial (Register.volatile_pair hdst hsrc)
    exact .append (.one hcmp) (.one (.of_volatile trivial (List.forall_mem_singleton.mpr hdst)))

theorem UnOp.framed_code {op : UnOp} {operand : Reservation} (h : op.code target operand = .ok code)
    (hoperand : operand.Housed reach) (htarget : target.Housed reach) : Framed arrays reach code := by
  rw [UnOp.code_eq] at h
  obtain ⟨⟨load, src⟩, hload, h₁⟩ := StepM.outcome_bind_eq_ok.mp h
  obtain ⟨compute, hcompute, h₂⟩ := StepM.outcome_bind_eq_ok.mp h₁
  obtain ⟨finish, hfinish, h₃⟩ := StepM.outcome_bind_eq_ok.mp h₂
  cases h₃
  have hdst := htarget.staging
  obtain ⟨hframed, hsrc⟩ := Code.framed_operandOf hload hoperand
  have hboth := Register.volatile_pair hdst hsrc
  refine .append (.append hframed ?_) (Code.framed_copy hfinish (htarget.inRegister hdst) htarget)
  cases op with
  | neg =>
    cases hcompute
    exact .append (.one (.of_volatile trivial hboth)) (Code.framed_truncate hdst _)
  | bitNot =>
    cases hcompute
    exact .append (.one (.of_volatile trivial hboth)) (Code.framed_truncate hdst _)
  | not =>
    cases hcompute
    have hcmp : (Instr.cmpImm src 0).Plain :=
      .of_volatile (Nat.zero_le _) (List.forall_mem_singleton.mpr hsrc)
    exact .append (.one hcmp) (.one (.of_volatile trivial (List.forall_mem_singleton.mpr hdst)))
  | addrOf => cases hcompute
  | deref =>
    simp only [UnOp.compute] at hcompute
    split at hcompute <;> cases hcompute
    exact .one (.of_volatile trivial hboth)

/-! ## Calls -/

namespace Code

variable {arrays : List (Ty × Nat)} {reach : Reach} {live : List Register}

theorem framed_saveRegs (h : ∀ reg ∈ live, reg.Volatile) : Framed arrays reach (saveRegs live) := by
  rw [saveRegs]
  induction live using pushes.induct with
  | case1 => exact .nil
  | case2 reg => exact .one (.of_volatile trivial h)
  | case3 first second regs ih =>
    obtain ⟨hfirst, hrest⟩ := List.forall_mem_cons.mp h
    obtain ⟨hsecond, hrest⟩ := List.forall_mem_cons.mp hrest
    have hpush : (Instr.pushPair first second).Plain :=
      .of_volatile trivial (Register.volatile_pair hfirst hsecond)
    exact .append (.one hpush) (ih hrest)

theorem framed_restoreRegs (h : ∀ reg ∈ live, reg.Volatile) : Framed arrays reach (restoreRegs live) := by
  rw [restoreRegs]
  induction live using pops.induct with
  | case1 => exact .nil
  | case2 reg => exact .one (.of_volatile trivial h)
  | case3 first second regs ih =>
    obtain ⟨hfirst, hrest⟩ := List.forall_mem_cons.mp h
    obtain ⟨hsecond, hrest⟩ := List.forall_mem_cons.mp hrest
    rw [pops, ofInstrs, List.map_append]
    have hpop : (Instr.popPair first second).Plain :=
      .of_volatile trivial (Register.volatile_pair hfirst hsecond)
    exact .append (ih hrest) (.one hpop)

end Code

end ArmBackend
