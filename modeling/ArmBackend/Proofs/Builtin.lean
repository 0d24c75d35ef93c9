import ArmBackend.Builtin
import ArmBackend.Proofs.Machine.Labels
import ArmBackend.Proofs.Machine.Traps

/-!
# Printing an integer

The helper builds the decimal text of its argument from the end of its buffer downward, digit by digit,
and writes it with one trap.
-/

namespace ArmBackend.Builtin

/-! ## The text -/

def decimal (n : Nat) : List Byte := (Nat.toDigits 10 n).map fun c => BitVec.ofNat 8 c.toNat

theorem decimal_of_lt {n : Nat} (h : n < 10) : decimal n = [BitVec.ofNat 8 (48 + n)] := by
  rw [decimal, Nat.toDigits_of_lt_base h, List.map_singleton, Nat.toNat_digitChar_of_lt_ten h]

theorem decimal_of_le {n : Nat} (h : 10 ≤ n) :
    decimal n = decimal (n / 10) ++ [BitVec.ofNat 8 (48 + n % 10)] := by
  have hdigit := Nat.toNat_digitChar_of_lt_ten (Nat.mod_lt n (by decide : 0 < 10))
  rw [decimal, Nat.toDigits_of_base_le (by decide) h, List.map_append, List.map_singleton, hdigit]
  rfl

theorem length_decimal_le {n k : Nat} (hk : 0 < k) (h : n < 10 ^ k) : (decimal n).length ≤ k := by
  rw [decimal, List.length_map]
  exact (Nat.length_toDigits_le_iff (by decide) hk).mpr h

theorem length_decimal_pos (n : Nat) : 0 < (decimal n).length := by
  rcases Nat.lt_or_ge n 10 with h | h
  · rw [decimal_of_lt h]
    exact Nat.one_pos
  · simp [decimal_of_le h]

/-- The sign, the digits and the newline that are printed for a value. -/
def printed (v : Word) : List Byte :=
  (if v.toInt < 0 then [45] else []) ++ decimal v.toInt.natAbs ++ [10]

theorem length_decimal_natAbs_le (v : Word) : (decimal v.toInt.natAbs).length ≤ 19 := by
  have hlt := v.toInt_lt
  have hle := v.le_toInt
  exact length_decimal_le (by decide) (by omega)

theorem length_printed_le (v : Word) : (printed v).length ≤ printBuffer := by
  have hdigits := length_decimal_natAbs_le v
  simp only [printed, List.length_append, List.length_singleton, printBuffer]
  split <;> simp only [List.length_singleton, List.length_nil] <;> omega

theorem utf8_ascii {text : String} (h : ∀ c ∈ text.toList, c.toNat < 128) :
    (Asciz.utf8 text).map UInt8.toBitVec = text.toList.map fun c => BitVec.ofNat 8 c.toNat := by
  have hchar : ∀ c ∈ text.toList, String.utf8EncodeChar c = [UInt8.ofNat c.toNat] := fun c hc => by
    have := h c hc
    exact if_pos (show c.toNat ≤ 127 by omega)
  rw [Asciz.utf8, List.map_flatMap, List.map_eq_flatMap]
  refine List.flatMap_congr fun c hc => ?_
  rw [hchar c hc]
  rfl

theorem lt_of_mem_toDigits {n : Nat} {c : Char} (h : c ∈ Nat.toDigits 10 n) : c.toNat < 128 := by
  have hdigit := Nat.isDigit_of_mem_toDigits (by decide) (by decide) h
  simp only [Char.isDigit, Bool.and_eq_true, decide_eq_true_eq] at hdigit
  have hle : c.toNat ≤ 57 := UInt32.le_iff_toNat_le.mp hdigit.2
  omega

theorem utf8_printed (v : Word) :
    (Asciz.utf8 (toString v.toInt ++ "\n")).map UInt8.toBitVec = printed v := by
  have htext : (toString v.toInt ++ "\n").toList =
      (if v.toInt < 0 then ['-'] else []) ++ Nat.toDigits 10 v.toInt.natAbs ++ ['\n'] := by
    rw [String.toList_append, Int.toString_eq_repr, Int.repr_eq_if]
    by_cases hneg : v.toInt < 0
    · have habs : (-v.toInt).toNat = v.toInt.natAbs := by omega
      rw [if_neg (by omega), if_pos hneg, String.toList_append, Nat.toList_repr, habs]
      rfl
    · have habs : v.toInt.toNat = v.toInt.natAbs := by omega
      rw [if_pos (by omega), if_neg hneg, Nat.toList_repr, habs]
      rfl
  rw [utf8_ascii, htext]
  · simp only [List.map_append, printed]
    split <;> rfl
  · rw [htext]
    intro c hc
    rcases List.mem_append.mp hc with hc | hc
    · rcases List.mem_append.mp hc with hc | hc
      · split at hc
        · rw [List.mem_singleton.mp hc]
          decide
        · cases hc
      · exact lt_of_mem_toDigits hc
    · rw [List.mem_singleton.mp hc]
      decide

/-! ## The buffer -/

/-- The addresses of the buffer, which ends at the stack pointer of the caller. -/
def Buffer (top a : Word) : Prop := (a - (top - .ofNat 64 printBuffer)).toNat < printBuffer

theorem buffer_of_lt {top : Word} {n : Nat} (h : n < printBuffer) :
    Buffer top (top - .ofNat 64 (n + 1)) := by
  have htop := top.isLt
  simp only [Buffer, printBuffer, BitVec.toNat_sub, BitVec.toNat_ofNat] at h ⊢
  omega

def Outside (s t : State) : Prop := ∀ a, ¬ Buffer (s.regs .stackPointer) a → t.mem a = s.mem a

def changed : List Register := [.x0, .x1, .x2, .x3, .x4, .x5, .trapNumber]

/-- How `t` comes of the state `s` at the entry: the text built so far stands at the end of the buffer,
and x1 points at its first byte. -/
structure Printing (s : State) (text : List Byte) (t : State) : Prop where
  pointer : t.regs .stackPointer = s.regs .stackPointer - .ofNat 64 printBuffer
  value : t.regs .x0 = s.regs .x0
  radix : t.regs .x2 = 10#64
  cursor : t.regs .x1 = s.regs .stackPointer - .ofNat 64 text.length
  bytes : t.bytes (t.regs .x1) text.length = text
  only : ChangesOnly (fun reg => reg = .stackPointer ∨ reg ∈ changed) (Buffer (s.regs .stackPointer)) s t

def prepend (src : Register) : Code := Code.ofInstrs [.subImm .x1 .x1 1, .store .byte src (.base .x1)]

namespace Printing

variable {w : World} {s t : State} {text : List Byte}

theorem set (h : Printing s text t) (reg : Register) (hreg : reg ∈ [Register.x3, .x4, .x5]) (v : Word) :
    Printing s text (t.set reg v) := by
  have hmem : reg ∈ changed := by
    simp only [List.mem_cons, List.not_mem_nil, or_false] at hreg
    rcases hreg with rfl | rfl | rfl <;> decide
  have hne : ∀ other ∈ [Register.stackPointer, .x0, .x1, .x2], (t.set reg v).regs other = t.regs other := by
    intro other hother
    refine t.set_regs_ne v fun heq => ?_
    subst heq
    simp only [List.mem_cons, List.not_mem_nil, or_false] at hreg hother
    rcases hreg with rfl | rfl | rfl <;> simp at hother
  have hcursor := hne .x1 (by decide)
  exact ⟨(hne _ (by decide)).trans h.pointer, (hne _ (by decide)).trans h.value,
    (hne _ (by decide)).trans h.radix, hcursor.trans h.cursor, hcursor.symm ▸ h.bytes,
    h.only.trans (.set (Or.inr hmem))⟩

theorem compare (h : Printing s text t) (flags : Flags) : Printing s text { t with flags } :=
  ⟨h.pointer, h.value, h.radix, h.cursor, h.bytes, h.only.reg, h.only.byte⟩

theorem maintains_prepend (h : Printing s text t) (hroom : text.length < printBuffer) {src : Register}
    (hsrc : src ≠ .x1) :
    Code.Maintains w (Outside s) (prepend src) t
      fun u => Printing s ((t.regs src).setWidth 8 :: text) u ∧ ∀ reg, reg ≠ .x1 → u.regs reg = t.regs reg := by
  have hothers : ∀ v reg, reg ≠ .x1 → (t.set .x1 v).regs reg = t.regs reg :=
    fun v reg hreg => t.set_regs_ne v hreg
  refine ⟨h.only.byte, _, rfl, h.only.byte, _, rfl, ?_, hothers _⟩
  have hcursor : t.regs .x1 - .ofNat 64 1 = s.regs .stackPointer - .ofNat 64 (text.length + 1) := by
    rw [h.cursor, BitVec.ofNat_add]
    grind
  have hset : ∀ v, (t.set .x1 v).regs .x1 = v := t.set_regs_self .x1
  simp only [Address.eval, hset, hothers _ src hsrc]
  refine ⟨?_, ?_, ?_, ?_, ?_, ?_⟩
  · exact (hothers (t.regs .x1 - .ofNat 64 1) .stackPointer (by decide)).trans h.pointer
  · exact (hothers (t.regs .x1 - .ofNat 64 1) .x0 (by decide)).trans h.value
  · exact (hothers (t.regs .x1 - .ofNat 64 1) .x2 (by decide)).trans h.radix
  · exact (hset _).trans hcursor
  · rw [State.store_regs, hset, List.length_cons,
      State.bytes_store _ _ _ (Nat.lt_trans hroom (by decide)), BitVec.sub_add_cancel]
    exact congrArg _ h.bytes
  · refine h.only.trans (.trans (.set (Or.inr (by decide))) (.store fun b hb => ?_))
    have hzero : b - (t.regs .x1 - .ofNat 64 1) = 0#64 := BitVec.eq_of_toNat_eq (by simpa [Width.bytes] using hb)
    rw [BitVec.sub_eq_iff_eq_add.mp hzero, BitVec.zero_add, hcursor]
    exact buffer_of_lt hroom

end Printing

/-! ## The parts of the helper -/

def setup : Code :=
  Code.ofInstrs
    [.subImm .stackPointer .stackPointer printBuffer, .addImm .x1 .stackPointer printBuffer, .movImm .x2 10] ++
  prepend .x2 ++ Code.ofInstrs [.cmpImm .x0 0, .cneg .x3 .x0 .lt]

def digit : Code :=
  Code.ofInstrs [.udiv .x4 .x3 .x2, .msub .x5 .x4 .x2 .x3, .addImm .x5 .x5 48] ++ prepend .x5 ++
  Code.ofInstrs [.mov .x3 .x4]

def loop : Code := .label digitLabel :: (digit ++ Code.ofInstrs [.cbnz .x3 digitLabel])

def sign : Code :=
  .instr (.cmpImm .x0 0) :: .instr (.bCond .ge writeLabel) :: (Code.ofInstrs [.movImm .x5 45] ++ prepend .x5)

def request : Code :=
  Code.ofInstrs
    [.addImm .x2 .stackPointer printBuffer, .arith .sub .x2 .x2 .x1, .movImm .x0 standardOutput,
      .movImm .trapNumber writeCall]

def finish : Code :=
  .label writeLabel :: (request ++ Code.ofInstrs
    [.svc 0x80, .addImm .stackPointer .stackPointer printBuffer, .ret])

theorem printIntBody_eq : printIntBody = setup ++ (loop ++ (sign ++ finish)) := rfl

/-- A state that asks for a text to be written to standard output. -/
structure Writes (text : List Byte) (s : State) : Prop where
  number : s.regs .trapNumber = 4
  file : s.regs .x0 = 1
  bytes : s.bytes (s.regs .x1) (s.regs .x2).toNat = text

/-- A kernel that returns from a request to write with its results in x0 and x1. -/
def Answers (kernel : State → State) : Prop :=
  ∀ s, s.regs .trapNumber = 4 →
    ChangesOnly (fun reg => reg = .x0 ∨ reg = .x1) (fun _ => False) s (kernel s)

section

variable {w : World} {s t : State} {text : List Byte}

theorem toNat_abs (v : Word) : (if Cond.eval .lt v 0#64 then -v else v).toNat = v.toInt.natAbs := by
  have htoInt := v.toInt_eq_toNat_cond
  have hlt := v.isLt
  simp only [Cond.eval, BitVec.slt, BitVec.toInt_zero, decide_eq_true_eq]
  split
  · rw [BitVec.toNat_neg]
    omega
  · omega

theorem maintains_open (s : State) :
    Code.Maintains w (Outside s)
      (Code.ofInstrs [.subImm .stackPointer .stackPointer printBuffer, .addImm .x1 .stackPointer printBuffer,
        .movImm .x2 10]) s (Printing s []) := by
  refine ⟨fun _ _ => rfl, _, rfl, fun _ _ => rfl, _, rfl, fun _ _ => rfl, _, rfl, rfl, rfl, rfl, ?_, rfl, ?_⟩
  · exact (BitVec.sub_add_cancel _ _).trans (BitVec.sub_zero _).symm
  · exact (ChangesOnly.set (Or.inl rfl)).trans ((ChangesOnly.set (Or.inr (by decide))).trans
      (.set (Or.inr (by decide))))

theorem maintains_setup (s : State) :
    Code.Maintains w (Outside s) setup s
      fun t => Printing s [10] t ∧ (t.regs .x3).toNat = (s.regs .x0).toInt.natAbs := by
  rw [setup, Code.maintains_append, Code.maintains_append]
  refine (maintains_open s).mono (fun _ => id) fun t ht => ?_
  refine (ht.maintains_prepend (by decide) (by decide)).mono (fun _ => id) fun u hu => ?_
  obtain ⟨hu, -⟩ := hu
  rw [ht.radix] at hu
  have hcompare := hu.compare (.compare (u.regs .x0) (.ofNat 64 0))
  refine ⟨hu.only.byte, _, rfl, hu.only.byte, _, rfl, hcompare.set _ (by decide) _, ?_⟩
  rw [State.set_regs_self, Cond.holds_compare, ← toNat_abs, ← hu.value]

theorem setWidth_digit (v : Word) :
    (v - v / 10#64 * 10#64 + 48#64).setWidth 8 = BitVec.ofNat 8 (48 + v.toNat % 10) := by
  have hv := v.isLt
  simp only [← BitVec.toNat_inj, BitVec.toNat_setWidth, BitVec.toNat_add, BitVec.toNat_sub, BitVec.toNat_mul,
    BitVec.toNat_udiv, BitVec.toNat_ofNat, Nat.reducePow, Nat.reduceMod]
  omega

theorem Printing.maintains_digit (h : Printing s text t) (hroom : text.length < printBuffer) :
    Code.Maintains w (Outside s) digit t fun u =>
      Printing s (.ofNat 8 (48 + (t.regs .x3).toNat % 10) :: text) u ∧
        (u.regs .x3).toNat = (t.regs .x3).toNat / 10 := by
  rw [digit, Code.maintains_append, Code.maintains_append]
  have hquotient := h.set .x4 (by decide) (t.regs .x3 / t.regs .x2)
  set t₁ := t.set .x4 (t.regs .x3 / t.regs .x2)
  have hremainder := hquotient.set .x5 (by decide) (t₁.regs .x3 - t₁.regs .x4 * t₁.regs .x2)
  set t₂ := t₁.set .x5 (t₁.regs .x3 - t₁.regs .x4 * t₁.regs .x2)
  have hdigit := hremainder.set .x5 (by decide) (t₂.regs .x5 + .ofNat 64 48)
  refine ⟨h.only.byte, t₁, rfl, hquotient.only.byte, t₂, rfl, hremainder.only.byte, _, rfl, ?_⟩
  refine (hdigit.maintains_prepend hroom (by decide)).mono (fun _ => id) fun u hu => ?_
  obtain ⟨hu, hothers⟩ := hu
  have hx4 : u.regs .x4 = t.regs .x3 / t.regs .x2 := hothers .x4 (by decide)
  have hx5 : (t₂.set .x5 (t₂.regs .x5 + .ofNat 64 48)).regs .x5 =
      t.regs .x3 - t.regs .x3 / t.regs .x2 * t.regs .x2 + 48#64 := rfl
  rw [hx5, h.radix, setWidth_digit] at hu
  refine ⟨hu.only.byte, _, rfl, hu.set .x3 (by decide) _, ?_⟩
  rw [State.set_regs_self, hx4, h.radix, BitVec.toNat_udiv]
  rfl

theorem Printing.maintains_request (h : Printing s text t) (hroom : text.length ≤ printBuffer) :
    Code.Maintains w (Outside s) request t fun u =>
      Writes text u ∧ u.regs .stackPointer = s.regs .stackPointer - .ofNat 64 printBuffer ∧
        ChangesOnly (fun reg => reg = .stackPointer ∨ reg ∈ changed) (Buffer (s.regs .stackPointer)) s u := by
  have hlength : t.regs .stackPointer + .ofNat 64 printBuffer - t.regs .x1 = .ofNat 64 text.length := by
    rw [h.pointer, h.cursor]
    grind
  have hle : printBuffer = 32 := rfl
  refine ⟨h.only.byte, _, rfl, h.only.byte, _, rfl, h.only.byte, _, rfl, h.only.byte, _, rfl, ⟨rfl, rfl, ?_⟩,
    h.pointer, ?_⟩
  · change t.bytes (t.regs .x1) (t.regs .stackPointer + .ofNat 64 printBuffer - t.regs .x1).toNat = text
    rw [hlength, BitVec.toNat_ofNat, Nat.mod_eq_of_lt (by omega)]
    exact h.bytes
  · exact (((h.only.trans (.set (Or.inr (by decide)))).trans (.set (Or.inr (by decide)))).trans
      (.set (Or.inr (by decide)))).trans (.set (Or.inr (by decide)))

end

/-! ## The helper as a whole -/

namespace Printing

variable {image : Image} {pc : Nat} {s t : State} {text : List Byte}

/-- The loop ends: each round leaves a tenth of the number, and none where it is below 10. -/
theorem performs_loop (kernel : State → State) (hhosts : image.Hosts pc loop) {n : Nat}
    (h : Printing s text t) (hn : (t.regs .x3).toNat = n)
    (hroom : text.length + (decimal n).length ≤ printBuffer) :
    ∃ u, image.Performs kernel (Buffer (s.regs .stackPointer)) ⟨pc, t⟩ [] ⟨pc + loop.length, u⟩ ∧
      Printing s (decimal n ++ text) u := by
  obtain ⟨hline, hrest⟩ := hhosts.cons
  obtain ⟨hdigit, hbranch⟩ := hrest.append
  obtain ⟨hcbnz, -⟩ := hbranch.cons
  induction n using Nat.strongRecOn generalizing t text with
  | ind n ih =>
    have hpos := length_decimal_pos n
    obtain ⟨u, hperforms, hu, hquotient⟩ := Image.Performs.of_maintains kernel hdigit.stands
      (h.maintains_digit (by omega)) fun u hu => hu.1.only.byte
    rw [hn] at hu hquotient
    have hstep := Image.step_of_cbnz (s := u) hcbnz hhosts.label
    have hround : image.Performs kernel (Buffer (s.regs .stackPointer)) ⟨pc, t⟩ []
        ⟨if u.regs .x3 ≠ 0 then pc else pc + loop.length, u⟩ :=
      .pass (Image.step_of_label hline) (hperforms.trans (.pass hstep (.refl _)))
    rcases Nat.lt_or_ge n 10 with hlt | hge
    · have hzero : u.regs .x3 = 0 := BitVec.eq_of_toNat_eq (hquotient.trans (Nat.div_eq_of_lt hlt))
      rw [if_neg (not_not.mpr hzero)] at hround
      rw [Nat.mod_eq_of_lt hlt] at hu
      rw [decimal_of_lt hlt]
      exact ⟨u, hround, hu⟩
    · have hmore : u.regs .x3 ≠ 0 := fun hzero => by
        rw [hzero] at hquotient
        exact Nat.ne_of_lt (Nat.div_pos hge (by decide)) hquotient
      rw [decimal_of_le hge, List.length_append, List.length_singleton] at hroom
      obtain ⟨v, hrounds, hv⟩ := ih (n / 10) (Nat.div_lt_self (by omega) (by decide)) hu hquotient
        (by rw [List.length_cons]; omega)
      rw [if_pos hmore] at hround
      rw [decimal_of_le hge, List.append_assoc]
      exact ⟨v, hround.trans hrounds, hv⟩

theorem performs_sign (kernel : State → State) (hhosts : image.Hosts pc (sign ++ finish))
    (h : Printing s text t) (hroom : text.length < printBuffer) :
    ∃ u, image.Performs kernel (Buffer (s.regs .stackPointer)) ⟨pc, t⟩ [] ⟨pc + sign.length, u⟩ ∧
      Printing s ((if (s.regs .x0).toInt < 0 then [45] else []) ++ text) u := by
  obtain ⟨hsign, hfinish⟩ := hhosts.append
  obtain ⟨hcompare, hrest⟩ := hsign.cons
  obtain ⟨hbranch, hminus⟩ := hrest.cons
  have hflags := h.compare (.compare (t.regs .x0) (.ofNat 64 0))
  have hge : Cond.ge.holds (.compare (t.regs .x0) (.ofNat 64 0)) = true ↔ ¬ (s.regs .x0).toInt < 0 := by
    rw [Cond.holds_compare, h.value, Cond.eval, BitVec.sle_iff_toInt_le]
    exact Int.not_lt.symm
  set u : State := { t with flags := .compare (t.regs .x0) (.ofNat 64 0) }
  have hfirst : image.Performs kernel (Buffer (s.regs .stackPointer)) ⟨pc, t⟩ []
      ⟨if Cond.ge.holds u.flags then pc + sign.length else pc + 2, u⟩ :=
    .step (d := ⟨pc + 1, u⟩) (Image.step_of_exec hcompare rfl) (fun _ _ => rfl)
      (.pass (Image.step_of_bCond hbranch hfinish.label) (.refl _))
  by_cases hneg : (s.regs .x0).toInt < 0
  · rw [if_neg (mt hge.mp (not_not.mpr hneg))] at hfirst
    rw [if_pos hneg]
    have hdash := hflags.set .x5 (by decide) (.ofNat 64 45)
    obtain ⟨v, hperforms, hv, -⟩ := Image.Performs.of_maintains kernel hminus.stands
      (Code.maintains_append.mpr ⟨hflags.only.byte, _, rfl, hdash.maintains_prepend hroom (by decide)⟩)
      fun u hu => hu.1.only.byte
    exact ⟨v, hfirst.trans hperforms, hv⟩
  · rw [if_pos (hge.mpr hneg)] at hfirst
    rw [if_neg hneg]
    exact ⟨u, hfirst, hflags⟩

theorem performs_finish {kernel : State → State} (hhosts : image.Hosts pc finish) (h : Printing s text t)
    (hroom : text.length ≤ printBuffer)
    (hkernel : Answers kernel) :
    ∃ u v, image.Performs kernel (Buffer (s.regs .stackPointer)) ⟨pc, t⟩ [u]
        ⟨(s.regs .linkRegister).toNat, v⟩ ∧
      Writes text u ∧ ChangesOnly (· ∈ changed) (Buffer (s.regs .stackPointer)) s v := by
  obtain ⟨hlabel, hrest⟩ := hhosts.cons
  obtain ⟨hrequest, hrest⟩ := hrest.append
  obtain ⟨htrap, hrest⟩ := hrest.cons
  obtain ⟨hclose, hrest⟩ := hrest.cons
  obtain ⟨hret, -⟩ := hrest.cons
  obtain ⟨u, hperforms, hwrites, hpointer, honly⟩ := Image.Performs.of_maintains kernel hrequest.stands
    (h.maintains_request hroom) fun u hu => hu.2.2.byte
  have hreply := hkernel u hwrites.number
  have hlink : (kernel u).regs .linkRegister = s.regs .linkRegister :=
    (hreply.reg _ (by decide)).trans (honly.reg _ (by decide))
  set v := (kernel u).set .stackPointer ((kernel u).regs .stackPointer + .ofNat 64 printBuffer)
  have hreturn : image.Performs kernel (Buffer (s.regs .stackPointer)) ⟨pc + 1 + request.length + 1, kernel u⟩ []
      ⟨(v.regs .linkRegister).toNat, v⟩ :=
    .step (d := ⟨_, v⟩) (Image.step_of_exec hclose rfl) (fun _ _ => rfl) (.pass (Image.step_of_ret hret) (.refl _))
  have hlink' : v.regs .linkRegister = s.regs .linkRegister := hlink
  rw [hlink'] at hreturn
  refine ⟨u, v, .pass (Image.step_of_label hlabel) (hperforms.trans (.trap htrap hreturn)), hwrites, ?_, ?_⟩
  · intro reg hreg
    by_cases hsp : reg = .stackPointer
    · subst hsp
      change (kernel u).regs .stackPointer + .ofNat 64 printBuffer = s.regs .stackPointer
      rw [hreply.reg _ (by decide), hpointer]
      exact BitVec.sub_add_cancel _ _
    · have hanswer : reg ≠ .x0 ∧ reg ≠ .x1 :=
        ⟨fun heq => hreg (heq ▸ by decide), fun heq => hreg (heq ▸ by decide)⟩
      exact (State.set_regs_ne _ _ hsp).trans ((hreply.reg _ (not_or.mpr hanswer)).trans
        (honly.reg _ (not_or.mpr ⟨hsp, hreg⟩)))
  · exact fun a ha => (hreply.byte a id).trans (honly.byte a ha)

end Printing

variable {image : Image} {kernel : State → State} {pc : Nat}

theorem performs_printIntBody (hhosts : image.Hosts pc printIntBody)
    (hkernel : Answers kernel) (s : State) :
    ∃ u t, image.Performs kernel (Buffer (s.regs .stackPointer)) ⟨pc, s⟩ [u]
        ⟨(s.regs .linkRegister).toNat, t⟩ ∧
      Writes (printed (s.regs .x0)) u ∧ ChangesOnly (· ∈ changed) (Buffer (s.regs .stackPointer)) s t := by
  rw [printIntBody_eq] at hhosts
  obtain ⟨hsetup, hrest⟩ := hhosts.append
  obtain ⟨hloop, hrest⟩ := hrest.append
  have hfinish := hrest.append.2
  have hdigits := length_decimal_natAbs_le (s.regs .x0)
  have hbuffer : printBuffer = 32 := rfl
  obtain ⟨t₁, h₁, hnewline, hnumber⟩ := Image.Performs.of_maintains kernel hsetup.stands
    (maintains_setup s) fun t ht => ht.1.only.byte
  obtain ⟨t₂, h₂, hnumeral⟩ := hnewline.performs_loop kernel hloop hnumber
    (by rw [List.length_singleton]; omega)
  obtain ⟨t₃, h₃, hsigned⟩ := hnumeral.performs_sign kernel hrest
    (by rw [List.length_append, List.length_singleton]; omega)
  rw [← List.append_assoc] at hsigned
  obtain ⟨u, t, h₄, hwrites, honly⟩ := hsigned.performs_finish hfinish (length_printed_le _) hkernel
  exact ⟨u, t, h₁.trans (h₂.trans (h₃.trans h₄)), hwrites, honly⟩

/-- The helper returns for every value. It traps once, to write the value in decimal and a newline, and
leaves alone what is neither in its buffer nor one of its registers. -/
theorem performs_printInt {options : Options} (hhosts : image.Hosts pc (printInt.code options))
    (hkernel : Answers kernel) (s : State) :
    ∃ entry u t, image.code.address? (options.functionLabel printInt.name) = some entry ∧
      image.Performs kernel (Buffer (s.regs .stackPointer)) ⟨entry, s⟩ [u]
        ⟨(s.regs .linkRegister).toNat, t⟩ ∧
      Writes ((Asciz.utf8 (toString (s.regs .x0).toInt ++ "\n")).map UInt8.toBitVec) u ∧
      ChangesOnly (· ∈ changed) (Buffer (s.regs .stackPointer)) s t := by
  obtain ⟨hheader, hbody⟩ := hhosts.append
  obtain ⟨hdirectives, hlabel⟩ := hheader.append
  obtain ⟨u, t, hperforms, hwrites, honly⟩ := performs_printIntBody hbody hkernel s
  refine ⟨_, u, t, hlabel.label, .pass (Image.step_of_label hlabel.cons.1) ?_, ?_, honly⟩
  · rw [Options.functionHeader, List.length_append] at hperforms
    exact hperforms
  · rw [utf8_printed]
    exact hwrites

/-- The least value, whose absolute value is its own bits. -/
theorem performs_printInt_min :
    let image : Image := ⟨printInt.code {}, fun _ => 0⟩
    let s : State := ⟨Function.update (fun _ => 0) .x0 (.ofNat 64 (2 ^ 63)), fun _ => 0, ⟨false, false, false⟩⟩
    ∃ u t, image.Performs (fun u => u.set .x0 (u.regs .x2)) (Buffer 0) ⟨2, s⟩ [u] ⟨0, t⟩ ∧
      Writes ((Asciz.utf8 "-9223372036854775808\n").map UInt8.toBitVec) u ∧
      ChangesOnly (· ∈ changed) (Buffer 0) s t := by
  intro image s
  have hplaced : ∀ label ∈ [Label.named "_printi", digitLabel, writeLabel], label.Placed := by
    simp [Label.Placed, digitLabel, writeLabel]
  have hcode : image.code = [] ++ printInt.code {} ++ [] := rfl
  have hhosts : image.Hosts 0 (printInt.code {}) := Image.hosts_of_nodup hcode hplaced (by decide)
  have hkernel : Answers fun u => u.set .x0 (u.regs .x2) := fun u _ => .set (Or.inl rfl)
  obtain ⟨entry, u, t, hentry, hperforms, hwrites, honly⟩ := performs_printInt hhosts hkernel s
  have htwo : some 2 = some entry := by
    rw [← hentry]
    decide
  cases htwo
  exact ⟨u, t, hperforms, hwrites, honly⟩

end ArmBackend.Builtin
