import ArmBackend.Proofs.Machine.Exec
import Mathlib.Logic.Relation

/-!
# Running a text

The machine on a whole text: which line comes next, and where branches, calls and returns lead. The
addresses of the text are the numbers of its lines.
-/

namespace ArmBackend

structure Image where
  code : Code
  /-- The addresses of static data. -/
  symbol : Label → Word

structure Config where
  pc : Nat
  state : State

/-- Whether the line defines a label that is written like this one. -/
def Line.defines (label : Label) : Line → Bool
  | .label other => other.text == label.text
  | _ => false

def Code.address? (code : Code) (label : Label) : Option Nat := code.findIdx? (Line.defines label)

namespace Image

variable {image : Image}

/-! ## Steps -/

def goto (image : Image) (label : Label) (s : State) : Option Config :=
  (image.code.address? label).map (⟨·, s⟩)

/-- The step of a line that neither calls, traps nor returns. -/
def advance (image : Image) (c : Config) : Line → Option Config
  | .label _ => some ⟨c.pc + 1, c.state⟩
  | .directive (.asciz _) => none
  | .directive _ => some ⟨c.pc + 1, c.state⟩
  | .instr (.b label) => image.goto label c.state
  | .instr (.bCond cond label) =>
    if cond.holds c.state.flags then image.goto label c.state else some ⟨c.pc + 1, c.state⟩
  | .instr (.cbnz reg label) =>
    if c.state.regs reg ≠ 0 then image.goto label c.state else some ⟨c.pc + 1, c.state⟩
  | .instr instr => (instr.exec image.symbol c.state).map (⟨c.pc + 1, ·⟩)

/-- The next configuration. A call leaves the number of the next line in x30. A trap has none. -/
def step (image : Image) (c : Config) : Option Config :=
  (image.code[c.pc]?).bind fun
    | .instr (.bl label) => image.goto label (c.state.set .linkRegister (.ofNat 64 (c.pc + 1)))
    | .instr .ret => some ⟨(c.state.regs .linkRegister).toNat, c.state⟩
    | line => image.advance c line

def Runs (image : Image) : Config → Config → Prop :=
  Relation.ReflTransGen fun c d => image.step c = some d

def after (image : Image) : Nat → Config → Option Config
  | 0, c => some c
  | n + 1, c => (image.step c).bind (image.after n)

theorem runs_of_after {n : Nat} {c d : Config} (h : image.after n c = some d) : image.Runs c d := by
  induction n generalizing c with
  | zero =>
    cases h
    exact .refl
  | succ n ih =>
    obtain ⟨next, hnext, hrest⟩ := Option.bind_eq_some_iff.mp h
    exact .head hnext (ih hrest)

/-- The machine gets from line `pc` to line `pc'`, to a state that satisfies `Q`. -/
def Reaches (image : Image) (pc : Nat) (s : State) (pc' : Nat) (Q : State → Prop) : Prop :=
  ∃ t, image.Runs ⟨pc, s⟩ ⟨pc', t⟩ ∧ Q t

namespace Reaches

variable {pc pc' pc'' : Nat} {s t : State} {P Q : State → Prop}

theorem refl (h : Q s) : image.Reaches pc s pc Q := ⟨s, .refl, h⟩

theorem mono (h : image.Reaches pc s pc' P) (hPQ : ∀ t, P t → Q t) : image.Reaches pc s pc' Q :=
  h.imp fun t ht => ⟨ht.1, hPQ t ht.2⟩

theorem trans (h : image.Reaches pc s pc' P) (h' : ∀ t, P t → image.Reaches pc' t pc'' Q) :
    image.Reaches pc s pc'' Q := by
  obtain ⟨t, hst, hP⟩ := h
  obtain ⟨u, htu, hQ⟩ := h' t hP
  exact ⟨u, Relation.ReflTransGen.trans hst htu, hQ⟩

theorem step (h : image.step ⟨pc, s⟩ = some ⟨pc', t⟩) (h' : image.Reaches pc' t pc'' Q) :
    image.Reaches pc s pc'' Q := by
  obtain ⟨u, htu, hQ⟩ := h'
  exact ⟨u, .head h htu, hQ⟩

end Reaches

theorem step_of_line {pc : Nat} {s : State} {line : Line} (h : image.code[pc]? = some line)
    (hcall : ∀ label, line ≠ .instr (.bl label)) (hret : line ≠ .instr .ret) :
    image.step ⟨pc, s⟩ = image.advance ⟨pc, s⟩ line := by
  rw [step, h, Option.bind_some]
  split
  case h_1 label => exact absurd rfl (hcall label)
  case h_2 => exact absurd rfl hret
  case h_3 => rfl

theorem advance_of_exec {c : Config} {t : State} {instr : Instr}
    (ht : instr.exec image.symbol c.state = some t) :
    image.advance c (.instr instr) = some ⟨c.pc + 1, t⟩ := by
  cases instr with
  | b label => cases ht
  | bCond cond label => cases ht
  | cbnz reg label => cases ht
  | _ => exact congrArg (Option.map (Config.mk (c.pc + 1))) ht

theorem step_of_exec {pc : Nat} {s t : State} {instr : Instr}
    (h : image.code[pc]? = some (.instr instr)) (ht : instr.exec image.symbol s = some t) :
    image.step ⟨pc, s⟩ = some ⟨pc + 1, t⟩ := by
  have hcall : ∀ label, Line.instr instr ≠ .instr (.bl label) := by
    rintro label ⟨⟩
    cases ht
  have hret : Line.instr instr ≠ .instr .ret := by
    rintro ⟨⟩
    cases ht
  rw [step_of_line h hcall hret]
  exact advance_of_exec ht

/-! ## Places -/

def At (image : Image) (pc : Nat) (part : Code) : Prop := part <+: image.code.drop pc

theorem at_append {pc : Nat} {a b : Code} :
    image.At pc (a ++ b) ↔ image.At pc a ∧ image.At (pc + a.length) b := by
  constructor
  · rintro ⟨rest, h⟩
    rw [List.append_assoc] at h
    refine ⟨⟨_, h⟩, rest, ?_⟩
    rw [← List.drop_drop, ← h, List.drop_left]
  · rintro ⟨⟨rest, h⟩, hb⟩
    rw [At, ← List.drop_drop, ← h, List.drop_left] at hb
    rw [At, ← h]
    exact (List.prefix_append_right_inj a).mpr hb

theorem at_cons {pc : Nat} {line : Line} {part : Code} :
    image.At pc (line :: part) ↔ image.code[pc]? = some line ∧ image.At (pc + 1) part := by
  have hone : image.At pc [line] ↔ image.code[pc]? = some line := by
    rw [At, List.singleton_prefix_iff_head?_eq_some, List.head?_drop]
  have happend : image.At pc ([line] ++ part) ↔ image.At pc [line] ∧ image.At (pc + 1) part :=
    at_append
  rwa [hone] at happend

/-- The part stands in the text from line `pc` on, and branches to its labels lead there. -/
structure Hosts (image : Image) (pc : Nat) (part : Code) : Prop where
  stands : image.At pc part
  resolves : ∀ i label, part[i]? = some (.label label) → image.code.address? label = some (pc + i)

theorem Hosts.append {pc : Nat} {a b : Code} (h : image.Hosts pc (a ++ b)) :
    image.Hosts pc a ∧ image.Hosts (pc + a.length) b := by
  obtain ⟨ha, hb⟩ := at_append.mp h.stands
  refine ⟨⟨ha, fun i label hlabel => h.resolves i label ?_⟩, ⟨hb, fun i label hlabel => ?_⟩⟩
  · rw [List.getElem?_append_left (List.getElem?_eq_some_iff.mp hlabel).1]
    exact hlabel
  · rw [Nat.add_assoc]
    refine h.resolves (a.length + i) label ?_
    rwa [List.getElem?_append_right (Nat.le_add_right _ _), Nat.add_sub_cancel_left]

theorem Hosts.cons {pc : Nat} {line : Line} {part : Code} (h : image.Hosts pc (line :: part)) :
    image.code[pc]? = some line ∧ image.Hosts (pc + 1) part :=
  ⟨(at_cons.mp h.stands).1, (Hosts.append (a := [line]) h).2⟩

theorem Hosts.label {pc : Nat} {label : Label} {part : Code}
    (h : image.Hosts pc (.label label :: part)) : image.code.address? label = some pc :=
  h.resolves 0 label rfl

/-! ## Lines that choose the next line -/

section

variable {pc pc' : Nat} {s : State} {label : Label}

theorem step_of_label (h : image.code[pc]? = some (.label label)) :
    image.step ⟨pc, s⟩ = some ⟨pc + 1, s⟩ :=
  step_of_line h (fun _ => nofun) nofun

theorem step_of_ret (h : image.code[pc]? = some (.instr .ret)) :
    image.step ⟨pc, s⟩ = some ⟨(s.regs .linkRegister).toNat, s⟩ := by
  rw [Image.step, h]
  rfl

theorem step_of_bCond {cond : Cond} (h : image.code[pc]? = some (.instr (.bCond cond label)))
    (hlabel : image.code.address? label = some pc') :
    image.step ⟨pc, s⟩ = some ⟨if cond.holds s.flags then pc' else pc + 1, s⟩ := by
  rw [step_of_line h (fun _ => nofun) nofun]
  simp only [advance, goto, hlabel, Option.map_some]
  split <;> rfl

theorem step_of_cbnz {reg : Register} (h : image.code[pc]? = some (.instr (.cbnz reg label)))
    (hlabel : image.code.address? label = some pc') :
    image.step ⟨pc, s⟩ = some ⟨if s.regs reg ≠ 0 then pc' else pc + 1, s⟩ := by
  rw [step_of_line h (fun _ => nofun) nofun]
  simp only [advance, goto, hlabel, Option.map_some]
  split <;> rfl

end

namespace Reaches

variable {pc pc' pc₁ : Nat} {s : State} {Q : State → Prop} {label : Label}

theorem of_label (h : image.code[pc]? = some (.label label))
    (h' : image.Reaches (pc + 1) s pc' Q) : image.Reaches pc s pc' Q :=
  .step (step_of_label h) h'

theorem of_branch (h : image.code[pc]? = some (.instr (.b label)))
    (hlabel : image.code.address? label = some pc₁) (h' : image.Reaches pc₁ s pc' Q) :
    image.Reaches pc s pc' Q := by
  have hstep : image.step ⟨pc, s⟩ = image.goto label s := step_of_line h (fun _ => nofun) nofun
  rw [goto, hlabel] at hstep
  exact .step hstep h'

theorem of_branch_taken {cond : Cond} (h : image.code[pc]? = some (.instr (.bCond cond label)))
    (hlabel : image.code.address? label = some pc₁) (hcond : cond.holds s.flags = true)
    (h' : image.Reaches pc₁ s pc' Q) : image.Reaches pc s pc' Q := by
  refine .step (step_of_bCond h hlabel) ?_
  rwa [if_pos hcond]

theorem of_branch_passed {cond : Cond} (h : image.code[pc]? = some (.instr (.bCond cond label)))
    (hcond : cond.holds s.flags = false) (h' : image.Reaches (pc + 1) s pc' Q) :
    image.Reaches pc s pc' Q := by
  have hstep := step_of_line (s := s) h (fun _ => nofun) nofun
  simp only [advance, hcond, Bool.false_eq_true, if_false] at hstep
  exact .step hstep h'

theorem of_call (h : image.code[pc]? = some (.instr (.bl label)))
    (hlabel : image.code.address? label = some pc₁)
    (h' : image.Reaches pc₁ (s.set .linkRegister (.ofNat 64 (pc + 1))) pc' Q) :
    image.Reaches pc s pc' Q := by
  refine .step ?_ h'
  rw [Image.step, h]
  simp only [Option.bind_some, goto, hlabel, Option.map_some]

theorem of_ret (h : image.code[pc]? = some (.instr .ret))
    (h' : image.Reaches (s.regs .linkRegister).toNat s pc' Q) : image.Reaches pc s pc' Q :=
  .step (step_of_ret h) h'

end Reaches

/-! ## Straight-line code -/

/-- The world of the code in a text: calls run the text, and no trap returns. -/
def linked (image : Image) : World where
  symbol := image.symbol
  call label s Q := ∀ pc, image.code[pc]? = some (.instr (.bl label)) → image.Reaches pc s (pc + 1) Q
  trap _ _ := False
  call_mono hPQ h := fun pc hpc => (h pc hpc).mono hPQ
  trap_mono _ := id

/-- What code ensures is what the machine does where the code stands. -/
theorem reaches_of_ensures {part : Code} {pc : Nat} {s : State} {Q : State → Prop}
    (hat : image.At pc part) (h : Code.Ensures image.linked part s Q) :
    image.Reaches pc s (pc + part.length) Q := by
  induction part generalizing pc s with
  | nil => exact .refl h
  | cons line part ih =>
    obtain ⟨hline, htail⟩ := at_cons.mp hat
    rw [List.length_cons, Nat.add_comm part.length, ← Nat.add_assoc]
    cases line with
    | label label => exact h.elim
    | directive directive => exact h.elim
    | instr instr =>
      have hfirst : image.Reaches pc s (pc + 1) fun t => Code.Ensures image.linked part t Q := by
        cases instr with
        | bl label => exact h pc hline
        | svc imm => exact h.elim
        | _ =>
          obtain ⟨t, ht, hrest⟩ := h
          exact .step (step_of_exec hline ht) (.refl hrest)
      exact hfirst.trans fun t ht => ih htail ht

end Image

end ArmBackend
