import ArmBackend.Proofs.Machine.Labels
import ArmBackend.Proofs.Machine.References
import ArmBackend.Proofs.Machine.Steady

/-!
# A function seen from inside

Steps of a function whose callees are not known: a call or a trap goes on behind its line. The code of
statements is woven of straight-line code, stores through pointers, labels and branches, and keeps what is
steady on every path through it.
-/

namespace ArmBackend

namespace Label

def Local : Label → Prop
  | .named _ | .datum .. => False
  | _ => True

theorem Local.placed {label : Label} (h : label.Local) : label.Placed := by
  cases label with
  | named | datum => exact h.elim
  | _ => trivial

end Label

/-! ## Woven code -/

namespace Code

/-- Code of statements. Its straight-line parts call only if `calls`, and store into slots that satisfy
`writes`. -/
inductive Woven (calls : Prop) (writes : Int → Ty → Prop) : Code → Prop
  | nil : Woven calls writes []
  | straight {a b : Code} (ha : Straight calls writes a) (hb : Woven calls writes b) :
      Woven calls writes (a ++ b)
  | through (ty : Ty) {b : Code} (hb : Woven calls writes b) :
      Woven calls writes (storeThrough .operand .staging ty ++ b)
  | label (label : Label) {b : Code} (hb : Woven calls writes b) : Woven calls writes (.label label :: b)
  | branch {label : Label} (hlabel : label.Local) {b : Code} (hb : Woven calls writes b) :
      Woven calls writes (.instr (.b label) :: b)
  | branchIf (cond : Cond) {label : Label} (hlabel : label.Local) {b : Code} (hb : Woven calls writes b) :
      Woven calls writes (.instr (.bCond cond label) :: b)

namespace Woven

variable {calls : Prop} {writes writes' : Int → Ty → Prop} {a b code : Code}

theorem of_straight (h : Straight calls writes code) : Woven calls writes code := by
  rw [← List.append_nil code]
  exact .straight h .nil

theorem mono (h : Woven calls writes code) (hwrites : ∀ offset ty, writes offset ty → writes' offset ty) :
    Woven calls writes' code := by
  induction h with
  | nil => exact .nil
  | straight ha _ ih => exact .straight (ha.mono hwrites) ih
  | through ty _ ih => exact .through ty ih
  | label label _ ih => exact .label label ih
  | branch hlabel _ ih => exact .branch hlabel ih
  | branchIf cond hlabel _ ih => exact .branchIf cond hlabel ih

theorem append (ha : Woven calls writes a) (hb : Woven calls writes b) : Woven calls writes (a ++ b) := by
  induction ha with
  | nil => exact hb
  | straight ha _ ih =>
    rw [List.append_assoc]
    exact .straight ha ih
  | through ty _ ih =>
    rw [List.append_assoc]
    exact .through ty ih
  | label label _ ih => exact .label label ih
  | branch hlabel _ ih => exact .branch hlabel ih
  | branchIf cond hlabel _ ih => exact .branchIf cond hlabel ih

theorem leavesRecord (h : Woven calls writes code) :
    ∀ instr, Line.instr instr ∈ code → instr.LeavesRecord calls := by
  have hnone : ∀ {instr : Instr}, instr.dests = [] → instr ≠ .ret → instr.LeavesRecord calls :=
    fun hdests => .of_dests fun _ hreg => absurd (hdests ▸ hreg) List.not_mem_nil
  induction h with
  | nil => exact fun _ hmem => absurd hmem List.not_mem_nil
  | straight ha _ ih => exact fun instr hmem => (List.mem_append.mp hmem).elim (ha.leavesRecord instr) (ih instr)
  | through ty _ ih =>
    intro instr hmem
    rcases List.mem_cons.mp hmem with heq | hmem
    · cases heq
      exact hnone rfl nofun
    · exact ih instr hmem
  | label label _ ih =>
    intro instr hmem
    rcases List.mem_cons.mp hmem with heq | hmem
    · cases heq
    · exact ih instr hmem
  | branch hlabel _ ih | branchIf cond hlabel _ ih =>
    intro instr hmem
    rcases List.mem_cons.mp hmem with heq | hmem
    · cases heq
      exact hnone rfl nofun
    · exact ih instr hmem

/-- Woven code may be entered at its labels. -/
theorem drop_label (h : Woven calls writes code) {i : Nat} {label : Label}
    (hlabel : code[i]? = some (.label label)) : Woven calls writes (code.drop i) := by
  induction h generalizing i with
  | nil => exact absurd hlabel nofun
  | @straight a b ha hb ih =>
    by_cases hi : i < a.length
    · rw [List.getElem?_append_left hi] at hlabel
      exact absurd (mem_labels hlabel) (ha.labels ▸ List.not_mem_nil)
    · rw [List.getElem?_append_right (Nat.le_of_not_lt hi)] at hlabel
      rw [List.drop_append, List.drop_eq_nil_of_le (Nat.le_of_not_lt hi), List.nil_append]
      exact ih hlabel
  | through ty hb ih =>
    cases i with
    | zero => cases hlabel
    | succ i => exact ih hlabel
  | label other hb ih =>
    cases i with
    | zero => exact .label other hb
    | succ i => exact ih hlabel
  | branch hlabel' hb ih | branchIf cond hlabel' hb ih =>
    cases i with
    | zero => cases hlabel
    | succ i => exact ih hlabel

theorem maintains_of_call {kept : Word → Prop} {p s : State} {label : Label}
    (h : Woven calls writes code) (hclear : Clear kept calls writes p) (symbol : Label → Word)
    (hs : Steady kept calls 0 p s) (hcall : code.head? = some (.instr (.bl label))) :
    ∃ piece, Maintains (.abi symbol kept) (fun t => ∀ a, kept a → t.mem a = p.mem a)
      (.instr (.bl label) :: piece) s (Steady kept calls 0 p) := by
  induction h with
  | nil => cases hcall
  | @straight a b ha hb ih =>
    cases a with
    | nil => exact ih hcall
    | cons line piece =>
      cases hcall
      exact ⟨piece, ha.steady hclear symbol hs⟩
  | through | label | branch | branchIf => cases hcall

end Woven

end Code

/-! ## Strides -/

/-- Whether a stride from the line is what the machine does, whatever it has to spare. -/
def Line.plain : Line → Bool
  | .instr (.bl _) | .instr (.svc _) | .instr .ret | .instr (.store _ .operand (.base .staging)) => false
  | _ => true

namespace Image

/-- A step of a function whose callees are not known. Callees and stores through pointers, which are those
of x17 to the address in x16, spare the bytes `kept`. -/
inductive Stride (image : Image) (kept : Word → Prop) : Config → Config → Prop
  | line {c d : Config} {line : Line} (hline : image.code[c.pc]? = some line)
      (hstep : image.advance c line = some d)
      (hspares : ∀ width, line = .instr (.store width .operand (.base .staging)) →
        ∀ a, kept a → ¬ (a - c.state.regs .staging).toNat < width.bytes) : Stride image kept c d
  | call {c : Config} {label : Label} {t : State} (hline : image.code[c.pc]? = some (.instr (.bl label)))
      (hspares : Spares kept c.state t) : Stride image kept c ⟨c.pc + 1, t⟩
  | trap {c : Config} {imm : Nat} (hline : image.code[c.pc]? = some (.instr (.svc imm))) (v : Word) :
      Stride image kept c ⟨c.pc + 1, c.state.set .result v⟩

variable {image : Image} {kept : Word → Prop} {c d : Config} {I Q : State → Prop} {piece : Code}

theorem Stride.advance {line : Line} (h : image.Stride kept c d) (hline : image.code[c.pc]? = some line)
    (hcall : ∀ label, line ≠ .instr (.bl label)) (htrap : ∀ imm, line ≠ .instr (.svc imm)) :
    image.advance c line = some d ∧ ∀ width, line = .instr (.store width .operand (.base .staging)) →
      ∀ a, kept a → ¬ (a - c.state.regs .staging).toNat < width.bytes := by
  cases h with
  | line hline' hstep hspares =>
    cases hline.symm.trans hline'
    exact ⟨hstep, hspares⟩
  | call hline' => exact absurd (Option.some.inj (hline.symm.trans hline')) (hcall _)
  | trap hline' => exact absurd (Option.some.inj (hline.symm.trans hline')) (htrap _)

theorem Stride.maintains {line : Line} (h : image.Stride kept c d)
    (hline : image.code[c.pc]? = some line)
    (hmaintains : Code.Maintains (.abi image.symbol kept) I (line :: piece) c.state Q) :
    d.pc = c.pc + 1 ∧ Code.Maintains (.abi image.symbol kept) I piece d.state Q := by
  cases line with
  | label | directive => exact hmaintains.elim
  | instr instr =>
    obtain ⟨-, hensures⟩ := hmaintains
    cases h with
    | line hline' hstep =>
      cases hline.symm.trans hline'
      have hexec : ∃ t, instr.exec image.symbol c.state = some t ∧
          Code.Maintains (.abi image.symbol kept) I piece t Q := by
        cases instr with
        | bl | svc => cases hstep
        | _ => exact hensures
      obtain ⟨t, ht, hrest⟩ := hexec
      cases hstep.symm.trans (advance_of_exec ht)
      exact ⟨rfl, hrest⟩
    | call hline' hspares =>
      cases hline.symm.trans hline'
      exact ⟨rfl, hensures.2 _ hspares⟩
    | trap hline' v =>
      cases hline.symm.trans hline'
      exact ⟨rfl, hensures v⟩

def path (image : Image) : Nat → Config → Option Config
  | 0, c => some c
  | n + 1, c => (image.code[c.pc]?).bind fun line =>
    if line.plain then (image.advance c line).bind (image.path n) else none

theorem strides_of_path (kept : Word → Prop) {n : Nat} (h : image.path n c = some d) :
    Relation.ReflTransGen (image.Stride kept) c d := by
  induction n generalizing c with
  | zero =>
    cases h
    exact .refl
  | succ n ih =>
    obtain ⟨line, hline, h₁⟩ := Option.bind_eq_some_iff.mp h
    obtain ⟨hplain, h₂⟩ := Option.ite_none_right_eq_some.mp h₁
    obtain ⟨next, hnext, hrest⟩ := Option.bind_eq_some_iff.mp h₂
    refine .head (.line hline hnext ?_) (ih hrest)
    rintro width rfl
    cases hplain

/-! ## Paths through woven code -/

/-- The machine is in the code from line `start` on, in a piece of straight-line code that leaves what is
steady. The states on the way satisfy `I`, and behind the piece the code is woven. -/
def Within (image : Image) (kept : Word → Prop) (I : State → Prop) (calls : Prop)
    (writes : Int → Ty → Prop) (start : Nat) (code : Code) (p : State) (c : Config) : Prop :=
  ∃ before piece rest, code = before ++ (piece ++ rest) ∧ c.pc = start + before.length ∧
    Code.Woven calls writes rest ∧
    Code.Maintains (.abi image.symbol kept) I piece c.state (Steady kept calls 0 p)

variable {calls : Prop} {writes : Int → Ty → Prop} {start : Nat} {code before rest : Code} {p : State}

theorem Within.of_steady {s : State} (hcode : code = before ++ rest) (hrest : Code.Woven calls writes rest)
    (hs : Steady kept calls 0 p s) :
    image.Within kept I calls writes start code p ⟨start + before.length, s⟩ :=
  ⟨before, [], rest, hcode, rfl, hrest, hs⟩

theorem Within.byte
    (h : image.Within kept (fun t => ∀ a, kept a → t.mem a = p.mem a) calls writes start code p c) :
    ∀ a, kept a → c.state.mem a = p.mem a := by
  obtain ⟨before, piece, rest, -, -, -, hmaintains⟩ := h
  cases piece with
  | nil => exact hmaintains.byte
  | cons line piece =>
    cases line with
    | label | directive => exact hmaintains.elim
    | instr instr => exact hmaintains.1

structure Left (image : Image) (kept : Word → Prop) (calls : Prop) (start : Nat) (code : Code) (p : State)
    (c : Config) : Prop where
  outside : c.pc < start ∨ start + code.length ≤ c.pc
  label : ∃ label : Label, label.Local ∧ .branch label ∈ code.references ∧
    image.code.address? label = some c.pc
  steady : Steady kept calls 0 p c.state

/-- The machine is at a line of a store into one of the slots `stored`. What is steady beside the memory
still is. -/
def Storing (image : Image) (calls : Prop) (writes stored : Int → Ty → Prop) (start : Nat) (code : Code)
    (p : State) (c : Config) : Prop :=
  ∃ before front line piece rest src offset ty, stored offset ty ∧
    code = before ++ (Code.storeSlot src offset ty ++ rest) ∧
    Code.storeSlot src offset ty = front ++ line :: piece ∧ c.pc = start + (before ++ front).length ∧
    Code.Woven calls writes rest ∧
    Code.Maintains (.abi image.symbol fun _ => False) (fun _ => True) (line :: piece) c.state
      (Steady (fun _ => False) calls 0 p)

variable {clear stored : Int → Ty → Prop}

theorem Within.goto (hat : image.At start code) (hwoven : Code.Woven calls writes code) {label : Label}
    (hlabel : label.Local) (hmem : .branch label ∈ code.references)
    (hstep : image.goto label c.state = some d) (hs : Steady kept calls 0 p c.state) :
    image.Within kept I calls writes start code p d ∨ image.Left kept calls start code p d := by
  obtain ⟨i, hi, rfl⟩ := Option.map_eq_some_iff.mp hstep
  by_cases hout : i < start ∨ start + code.length ≤ i
  · exact Or.inr ⟨hout, ⟨label, hlabel, hmem, hi⟩, hs⟩
  · refine Or.inl ?_
    obtain ⟨k, rfl⟩ : ∃ k, i = start + k := ⟨i - start, by omega⟩
    have hk : k < code.length := by omega
    obtain ⟨other, hother, -⟩ := Code.label_of_address? hi
    have hline : code[k]? = some (.label other) := by
      obtain ⟨after, hafter⟩ := hat
      rw [← List.getElem?_append_left hk, hafter, List.getElem?_drop, hother]
    have hwithin : image.Within kept I calls writes start code p
        ⟨start + (code.take k).length, c.state⟩ :=
      .of_steady (List.take_append_drop k code).symm (hwoven.drop_label hline) hs
    rwa [List.length_take, Nat.min_eq_left (Nat.le_of_lt hk)] at hwithin

theorem Stride.within_of_steady (hat : image.At start code) (hwoven : Code.Woven calls writes code)
    (hclear : Clear kept calls clear p)
    (hwrites : ∀ {offset ty}, writes offset ty → clear offset ty ∨ stored offset ty)
    (hI : ∀ t, (∀ a, kept a → t.mem a = p.mem a) → I t)
    (hrest : Code.Woven calls writes rest) (hcode : code = before ++ rest) (hne : rest ≠ [])
    (hpc : c.pc = start + before.length) (hs : Steady kept calls 0 p c.state)
    (h : image.Stride kept c d) :
    image.Within kept I calls writes start code p d ∨ image.Left kept calls start code p d ∨
      image.Storing calls writes stored start code p c := by
  obtain ⟨pc, s⟩ := c
  obtain rfl : pc = start + before.length := hpc
  have hstands : image.At (start + before.length) rest := (at_append.mp (hcode ▸ hat)).2
  -- The next line, behind which the rest of the code is woven too.
  have hpasses : ∀ {line : Line} {b : Code} {t : State}, code = before ++ line :: b →
      Code.Woven calls writes b → Steady kept calls 0 p t →
      image.Within kept I calls writes start code p ⟨start + before.length + 1, t⟩ := by
    intro line b t hcode hb ht
    have hwithin : image.Within kept I calls writes start code p
        ⟨start + (before ++ [line]).length, t⟩ :=
      .of_steady (by rw [hcode, List.append_assoc]; rfl) hb ht
    rwa [List.length_append, ← Nat.add_assoc] at hwithin
  have hbranch : ∀ {instr : Instr} {b : Code} {label : Label}, code = before ++ .instr instr :: b →
      instr.reference? = some (.branch label) → .branch label ∈ code.references := by
    rintro instr b label rfl href
    simp [href]
  induction hrest with
  | nil => exact absurd rfl hne
  | @straight a b ha hb ih =>
    by_cases hempty : a = []
    · subst hempty
      exact ih hcode hne hstands
    obtain ⟨first, more, rfl, hfirst, hmore, hpiece⟩ := ha.split hempty hwrites
    rw [List.append_assoc] at hcode hstands
    obtain ⟨hfirstAt, -⟩ := at_append.mp hstands
    obtain ⟨line, piece, rfl⟩ := List.exists_cons_of_ne_nil hfirst
    rcases hpiece with hpiece | ⟨src, offset, ty, hstored, hstore⟩
    · have hsteady := (hpiece.steady hclear image.symbol hs).mono hI fun _ => id
      obtain ⟨hpc, hmaintains⟩ := h.maintains (at_cons.mp hfirstAt).1 hsteady
      refine Or.inl ⟨before ++ [line], piece, more ++ b, ?_, ?_, .straight hmore hb, hmaintains⟩
      · rw [hcode, List.append_assoc]
        rfl
      · rw [hpc, List.length_append, ← Nat.add_assoc]
        rfl
    · refine Or.inr (Or.inr ⟨before, [], line, piece, more ++ b, src, offset, ty, hstored, ?_, hstore.symm, ?_,
        .straight hmore hb, ?_⟩)
      · rw [hcode, hstore]
      · rw [List.append_nil]
      · have hnone : Clear (fun _ => False) calls stored p :=
          ⟨fun _ _ => False.elim, fun _ _ => False.elim, hclear.aligned⟩
        have hs' : Steady (fun _ => False) calls 0 p s := { hs with byte := fun _ => False.elim }
        rw [hstore]
        exact ((Code.Straight.store src hstored).steady hnone image.symbol hs').mono (fun _ _ => trivial)
          fun _ => id
  | through ty hb ih =>
    obtain ⟨hstep, hspares⟩ := h.advance (at_cons.mp hstands).1 (fun _ => nofun) fun _ => nofun
    cases hstep
    exact Or.inl (hpasses hcode hb (hs.volatile (fun _ _ => rfl) fun a ha => if_neg (hspares _ rfl a ha)))
  | label label hb ih =>
    obtain ⟨hstep, -⟩ := h.advance (at_cons.mp hstands).1 (fun _ => nofun) fun _ => nofun
    cases hstep
    exact Or.inl (hpasses hcode hb hs)
  | branch hlabel hb ih =>
    obtain ⟨hstep, -⟩ := h.advance (at_cons.mp hstands).1 (fun _ => nofun) fun _ => nofun
    exact (Within.goto hat hwoven hlabel (hbranch hcode rfl) hstep hs).imp_right Or.inl
  | branchIf cond hlabel hb ih =>
    obtain ⟨hstep, -⟩ := h.advance (at_cons.mp hstands).1 (fun _ => nofun) fun _ => nofun
    rw [Image.advance] at hstep
    split at hstep
    · exact (Within.goto hat hwoven hlabel (hbranch hcode rfl) hstep hs).imp_right Or.inl
    · cases hstep
      exact Or.inl (hpasses hcode hb hs)

/-- A stride in woven code stays in it or leaves it by a branch, where it does not store into the slots
`stored`. -/
theorem Within.stride (hin : image.Within kept I calls writes start code p c) (hat : image.At start code)
    (hwoven : Code.Woven calls writes code) (hclear : Clear kept calls clear p)
    (hwrites : ∀ {offset ty}, writes offset ty → clear offset ty ∨ stored offset ty)
    (hI : ∀ t, (∀ a, kept a → t.mem a = p.mem a) → I t) (hne : c.pc ≠ start + code.length)
    (h : image.Stride kept c d) :
    image.Within kept I calls writes start code p d ∨ image.Left kept calls start code p d ∨
      image.Storing calls writes stored start code p c := by
  obtain ⟨before, piece, rest, hcode, hpc, hrest, hmaintains⟩ := hin
  cases piece with
  | nil =>
    refine h.within_of_steady hat hwoven hclear hwrites hI hrest hcode (fun hnil => hne ?_) hpc hmaintains
    rw [hpc, hcode, hnil, List.append_nil, List.append_nil]
  | cons line piece =>
    have hstands : image.At c.pc (line :: (piece ++ rest)) := hpc ▸ (at_append.mp (hcode ▸ hat)).2
    obtain ⟨hpc', hmaintains'⟩ := h.maintains (at_cons.mp hstands).1 hmaintains
    refine Or.inl ⟨before ++ [line], piece, rest, ?_, ?_, hrest, hmaintains'⟩
    · rw [hcode, List.append_assoc]
      rfl
    · rw [hpc', hpc, List.length_append, ← Nat.add_assoc]
      rfl

end Image

/-! ## Stores into a variable -/

/-- The line belongs to a store into one of the slots. -/
def Code.StoresAt (code : Code) (slots : Int → Ty → Prop) (i : Nat) : Prop :=
  ∃ before src offset ty after, code = before ++ (storeSlot src offset ty ++ after) ∧ slots offset ty ∧
    before.length ≤ i ∧ i < before.length + (storeSlot src offset ty).length

theorem Steady.trans {kept : Word → Prop} {calls : Prop} {p q s : State} (h : Steady kept calls 0 p q)
    (h' : Steady kept calls 0 q s) : Steady kept calls 0 p s where
  pointer := by rw [h'.pointer, h.pointer, BitVec.sub_zero]
  reg reg hreg := (h'.reg reg hreg).trans (h.reg reg hreg)
  link hcalls := (h'.link hcalls).trans (h.link hcalls)
  byte a ha := (h'.byte a ha).trans (h.byte a ha)

theorem Clear.steady {kept kept' : Word → Prop} {calls : Prop} {writes : Int → Ty → Prop} {p q : State}
    (h : Clear kept calls writes p) (hq : Steady kept' calls 0 p q) : Clear kept calls writes q where
  store := by
    rw [hq.reg _ (Or.inl rfl)]
    exact h.store
  push := by
    rw [hq.pointer, BitVec.sub_zero]
    exact h.push
  aligned hcalls := hq.aligned (h.aligned hcalls) (Nat.zero_mod _)

namespace Image

variable {image : Image} {kept kept' : Word → Prop} {calls : Prop} {writes clear stored : Int → Ty → Prop}
  {start : Nat} {code : Code} {p : State} {c d : Config}

theorem Stride.mono (h : image.Stride kept c d) (hkept : ∀ a, kept' a → kept a) : image.Stride kept' c d := by
  cases h with
  | line hline hstep hspares => exact .line hline hstep fun width heq a ha => hspares width heq a (hkept a ha)
  | call hline hspares =>
    exact .call hline { hspares with byte := fun a ha => hspares.byte a (hkept a ha) }
  | trap hline v => exact .trap hline v

theorem Storing.storesAt (h : image.Storing calls writes stored start code p c) :
    code.StoresAt stored (c.pc - start) := by
  obtain ⟨before, front, line, piece, rest, src, offset, ty, hstored, hcode, hstore, hpc, -, -⟩ := h
  refine ⟨before, src, offset, ty, rest, hcode, hstored, ?_, ?_⟩
  · rw [hpc, List.length_append]
    omega
  · rw [hpc, hstore, List.length_append, List.length_append, List.length_cons]
    omega

/-- The machine is in woven code. The bytes `kept` are as they were when a store into the slots `stored`
ended the last time, unless such a store is going on. -/
def Amid (image : Image) (kept : Word → Prop) (calls : Prop) (writes stored : Int → Ty → Prop) (start : Nat)
    (code : Code) (p : State) (c : Config) : Prop :=
  ∃ q, Steady (fun _ => False) calls 0 p q ∧
    (image.Within kept (fun t => ∀ a, kept a → t.mem a = q.mem a) calls writes start code q c ∨
      image.Storing calls writes stored start code q c)

theorem Amid.bounds (h : image.Amid kept calls writes stored start code p c) :
    start ≤ c.pc ∧ c.pc ≤ start + code.length := by
  obtain ⟨q, -, ⟨before, piece, rest, rfl, hpc, -⟩ |
    ⟨before, front, line, piece, rest, src, offset, ty, -, rfl, hstore, hpc, -⟩⟩ := h
  · simp only [hpc, List.length_append]
    omega
  · simp only [hpc, hstore, List.length_append, List.length_cons]
    omega

theorem Storing.stride (hin : image.Storing calls writes stored start code p c) (hat : image.At start code)
    (h : image.Stride kept c d) : image.Amid kept calls writes stored start code p d := by
  obtain ⟨before, front, line, piece, rest, src, offset, ty, hstored, hcode, hstore, hpc, hrest, hmaintains⟩ := hin
  have hsplit : code = (before ++ front) ++ line :: (piece ++ rest) := by
    rw [hcode, hstore]
    simp
  have hstands : image.At c.pc (line :: (piece ++ rest)) := hpc ▸ (at_append.mp (hsplit ▸ hat)).2
  obtain ⟨hpc', hmaintains'⟩ := (h.mono fun _ => False.elim).maintains (at_cons.mp hstands).1 hmaintains
  have hlength : d.pc = start + (before ++ (front ++ [line])).length := by
    rw [hpc', hpc]
    simp only [List.length_append, List.length_singleton]
    omega
  cases piece with
  | nil =>
    refine ⟨d.state, hmaintains', Or.inl ⟨before ++ (front ++ [line]), [], rest, ?_, hlength, hrest, .refl ..⟩⟩
    rw [hsplit]
    simp
  | cons next piece =>
    refine ⟨p, .refl .., Or.inr ⟨before, front ++ [line], next, piece, rest, src, offset, ty, hstored, hcode, ?_,
      hlength, hrest, hmaintains'⟩⟩
    rw [hstore, List.append_assoc]
    rfl

/-- A stride in woven code changes the bytes `kept` in a store into the slots `stored` only. -/
theorem Amid.stride (hin : image.Amid kept calls writes stored start code p c) (hat : image.At start code)
    (hwoven : Code.Woven calls writes code) (hclear : Clear kept calls clear p)
    (hwrites : ∀ {offset ty}, writes offset ty → clear offset ty ∨ stored offset ty)
    (hne : c.pc ≠ start + code.length) (h : image.Stride kept c d) :
    (image.Amid kept calls writes stored start code p d ∨ ∃ q, image.Left kept calls start code q d) ∧
      ((∀ a, kept a → d.state.mem a = c.state.mem a) ∨ code.StoresAt stored (c.pc - start)) := by
  obtain ⟨q, hq, hin⟩ := hin
  have hstoring : image.Storing calls writes stored start code q c →
      (image.Amid kept calls writes stored start code p d ∨ ∃ q, image.Left kept calls start code q d) ∧
        ((∀ a, kept a → d.state.mem a = c.state.mem a) ∨ code.StoresAt stored (c.pc - start)) := by
    intro hstoring
    obtain ⟨q', hq', hd⟩ := hstoring.stride hat h
    exact ⟨Or.inl ⟨q', hq.trans hq', hd⟩, Or.inr hstoring.storesAt⟩
  rcases hin with hwithin | hin
  · rcases hwithin.stride hat hwoven (hclear.steady hq) hwrites (fun _ => id) hne h with hd | hd | hin
    · exact ⟨Or.inl ⟨q, hq, Or.inl hd⟩, Or.inl fun a ha => (hd.byte a ha).trans (hwithin.byte a ha).symm⟩
    · exact ⟨Or.inr ⟨q, hd⟩, Or.inl fun a ha => (hd.steady.byte a ha).trans (hwithin.byte a ha).symm⟩
    · exact hstoring hin
  · exact hstoring hin

end Image

end ArmBackend
