import ArmBackend.Assembly.Code
import ArmBackend.Proofs.Machine.State

/-!
# Executing instructions

What one instruction does to a machine state, and what a piece of code without labels and branches
ensures. Calls and traps leave the code: what they ensure is a parameter.
-/

namespace ArmBackend

def Address.eval (s : State) : Address → Word
  | .frame offset => s.regs .framePointer - BitVec.ofInt 64 offset
  | .base reg => s.regs reg

namespace State

/-- The stack may be accessed only while the stack pointer is a multiple of 16. -/
def StackAligned (s : State) : Prop := (s.regs .stackPointer).toNat % 16 = 0

instance (s : State) : Decidable s.StackAligned := inferInstanceAs (Decidable (_ = _))

def pushed (s : State) : State := s.set .stackPointer (s.regs .stackPointer - 16#64)

def popped (s : State) : State := s.set .stackPointer (s.regs .stackPointer + 16#64)

end State

/-- The effect of an instruction that neither branches, calls nor traps. `symbol` yields the addresses
of static data. -/
def Instr.exec (symbol : Label → Word) (s : State) : Instr → Option State
  | .mov dst src => some (s.set dst (s.regs src))
  | .movImm dst imm => some (s.set dst (.ofNat 64 imm))
  | .movk dst chunk shift =>
    some (s.set dst
      (s.regs dst &&& ~~~(0xffff#64 <<< shift) ||| BitVec.ofNat 64 chunk <<< shift))
  | .arith op dst lhs rhs => some (s.set dst (op.eval (s.regs lhs) (s.regs rhs)))
  | .addImm dst src imm => some (s.set dst (s.regs src + .ofNat 64 imm))
  | .subImm dst src imm => some (s.set dst (s.regs src - .ofNat 64 imm))
  | .addImmPages dst src imm => some (s.set dst (s.regs src + .ofNat 64 (imm * 4096)))
  | .subImmPages dst src imm => some (s.set dst (s.regs src - .ofNat 64 (imm * 4096)))
  | .udiv dst lhs rhs => some (s.set dst (s.regs lhs / s.regs rhs))
  | .msub dst lhs rhs acc => some (s.set dst (s.regs acc - s.regs lhs * s.regs rhs))
  | .neg dst src => some (s.set dst (-s.regs src))
  | .cneg dst src cond =>
    some (s.set dst (if cond.holds s.flags then -s.regs src else s.regs src))
  | .mvn dst src => some (s.set dst (~~~s.regs src))
  | .maskByte dst src => some (s.set dst (s.regs src &&& 0xff#64))
  | .cmp lhs rhs => some { s with flags := .compare (s.regs lhs) (s.regs rhs) }
  | .cmpImm lhs imm => some { s with flags := .compare (s.regs lhs) (.ofNat 64 imm) }
  | .cset dst cond => some (s.set dst (if cond.holds s.flags then 1 else 0))
  | .load width dst address => some (s.set dst (s.load width (address.eval s)))
  | .store width src address => some (s.store width (address.eval s) (s.regs src))
  | .push reg =>
    if s.StackAligned then
      some (s.pushed.store .word (s.pushed.regs .stackPointer) (s.regs reg))
    else none
  | .pushPair first second =>
    if s.StackAligned then
      some ((s.pushed.store .word (s.pushed.regs .stackPointer) (s.regs first)).store .word
        (s.pushed.regs .stackPointer + 8#64) (s.regs second))
    else none
  | .pop reg =>
    if s.StackAligned then
      some (s.popped.set reg (s.load .word (s.regs .stackPointer)))
    else none
  | .popPair first second =>
    if s.StackAligned then
      some ((s.popped.set first (s.load .word (s.regs .stackPointer))).set second
        (s.load .word (s.regs .stackPointer + 8#64)))
    else none
  | .adrp dst label => some (s.set dst (symbol label &&& ~~~0xfff#64))
  | .addPageOffset dst src label => some (s.set dst (s.regs src + (symbol label &&& 0xfff#64)))
  | .b _ | .bCond _ _ | .cbnz _ _ | .bl _ | .svc _ | .ret => none

/-! ## What code ensures -/

/-- What surrounds a piece of code. -/
structure World where
  /-- The addresses of static data. -/
  symbol : Label → Word
  /-- Whether a call of a label in a state returns, and only in states that satisfy the predicate. -/
  call : Label → State → (State → Prop) → Prop
  /-- The same of a trap. -/
  trap : State → (State → Prop) → Prop
  call_mono : ∀ {label s P Q}, (∀ t, P t → Q t) → call label s P → call label s Q
  trap_mono : ∀ {s P Q}, (∀ t, P t → Q t) → trap s P → trap s Q

def Instr.Ensures (w : World) (instr : Instr) (s : State) (Q : State → Prop) : Prop :=
  match instr with
  | .bl label => w.call label s Q
  | .svc _ => w.trap s Q
  | instr => ∃ t, instr.exec w.symbol s = some t ∧ Q t

theorem Instr.Ensures.mono {w : World} {instr : Instr} {s : State} {P Q : State → Prop}
    (hPQ : ∀ t, P t → Q t) (h : instr.Ensures w s P) : instr.Ensures w s Q := by
  cases instr with
  | bl label => exact w.call_mono hPQ h
  | svc imm => exact w.trap_mono hPQ h
  | _ =>
    obtain ⟨t, ht, hP⟩ := h
    exact ⟨t, ht, hPQ t hP⟩

namespace Code

/-- Whether executing the lines one after the other leads to a state that satisfies `Q`. -/
def Ensures (w : World) : Code → State → (State → Prop) → Prop
  | [], s, Q => Q s
  | .instr instr :: code, s, Q => instr.Ensures w s fun t => Ensures w code t Q
  | _ :: _, _, _ => False

variable {w : World}

@[simp] theorem ensures_nil (s : State) (Q : State → Prop) : Ensures w [] s Q ↔ Q s := Iff.rfl

theorem ensures_cons (instr : Instr) (code : Code) (s : State) (Q : State → Prop) :
    Ensures w (.instr instr :: code) s Q ↔ instr.Ensures w s fun t => Ensures w code t Q := Iff.rfl

@[simp] theorem ensures_append (a b : Code) (s : State) (Q : State → Prop) :
    Ensures w (a ++ b) s Q ↔ Ensures w a s fun t => Ensures w b t Q := by
  induction a generalizing s with
  | nil => rfl
  | cons line a ih =>
    cases line with
    | instr instr =>
      simp only [List.cons_append, ensures_cons]
      simp only [ih]
    | directive => rfl
    | label => rfl

@[simp] theorem ensures_ofInstrs_nil (s : State) (Q : State → Prop) :
    Ensures w (ofInstrs []) s Q ↔ Q s := Iff.rfl

@[simp] theorem ensures_ofInstrs_cons (instr : Instr) (instrs : List Instr) (s : State)
    (Q : State → Prop) :
    Ensures w (ofInstrs (instr :: instrs)) s Q ↔
      instr.Ensures w s fun t => Ensures w (ofInstrs instrs) t Q := Iff.rfl

theorem Ensures.mono {code : Code} {s : State} {P Q : State → Prop} (h : Ensures w code s P)
    (hPQ : ∀ t, P t → Q t) : Ensures w code s Q := by
  induction code generalizing s with
  | nil => exact hPQ s h
  | cons line code ih =>
    cases line with
    | instr instr => exact Instr.Ensures.mono (fun t ht => ih ht) h
    | directive => exact h.elim
    | label => exact h.elim

/-! ## Every state on the way -/

/-- Whether executing the lines one after the other leads through states that satisfy `I` to a state that
satisfies `Q`. -/
def Maintains (w : World) (I : State → Prop) : Code → State → (State → Prop) → Prop
  | [], s, Q => Q s
  | .instr instr :: code, s, Q => I s ∧ instr.Ensures w s fun t => Maintains w I code t Q
  | _ :: _, _, _ => False

variable {I J P Q : State → Prop} {code : Code} {s : State}

theorem maintains_append {a b : Code} :
    Maintains w I (a ++ b) s Q ↔ Maintains w I a s fun t => Maintains w I b t Q := by
  induction a generalizing s with
  | nil => rfl
  | cons line a ih =>
    cases line with
    | instr instr =>
      simp only [List.cons_append, Maintains, ih]
    | directive => rfl
    | label => rfl

theorem Maintains.mono (h : Maintains w I code s P) (hIJ : ∀ t, I t → J t) (hPQ : ∀ t, P t → Q t) :
    Maintains w J code s Q := by
  induction code generalizing s with
  | nil => exact hPQ s h
  | cons line code ih =>
    cases line with
    | instr instr => exact ⟨hIJ s h.1, h.2.mono fun t ht => ih ht⟩
    | directive => exact h.elim
    | label => exact h.elim

theorem Ensures.maintains (h : Ensures w code s Q) : Maintains w (fun _ => True) code s Q := by
  induction code generalizing s with
  | nil => exact h
  | cons line code ih =>
    cases line with
    | instr instr => exact ⟨trivial, Instr.Ensures.mono (fun t ht => ih ht) h⟩
    | directive => exact h.elim
    | label => exact h.elim

theorem Maintains.ensures (h : Maintains w I code s Q) : Ensures w code s Q := by
  induction code generalizing s with
  | nil => exact h
  | cons line code ih =>
    cases line with
    | instr instr => exact Instr.Ensures.mono (fun t ht => ih ht) h.2
    | directive => exact h.elim
    | label => exact h.elim

end Code

end ArmBackend
