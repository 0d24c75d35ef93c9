import ArmBackend.Proofs.Machine.Lines

/-!
# What the statistics count in a text

The mark of a line says whether it calls out, moves registers to or from the stack, or defines a label of a
branch or loop. It is read off the text of the line. The registers that are saved for a call are those of the
pushes directly in front of it, and those that are restored are those of the pops directly behind it.
-/

namespace ArmBackend

inductive Mark where
  | call
  | trap
  /-- Moves registers to the stack. -/
  | push (count : Nat)
  /-- Moves registers from the stack. -/
  | pop (count : Nat)
  /-- A label of a branch or of a loop. -/
  | label
  | other
deriving DecidableEq

namespace Mark

def callsOut : Mark → Bool
  | .call | .trap => true
  | _ => false

def pushed : Mark → Nat
  | .push count => count
  | _ => 0

def popped : Mark → Nat
  | .pop count => count
  | _ => 0

/-! ## Marks of lines -/

/-- The mark of a line, by its mnemonic or the start of its label. A push ends with the mark of an address
that is written back, and a pop with what is added to its address. -/
def read (line : List Char) : Mark :=
  let line := unindent line
  let mnemonic := line.takeWhile (· != ' ')
  if mnemonic = "bl".toList then .call
  else if mnemonic = "svc".toList then .trap
  else if mnemonic = "str".toList ∧ line.getLast? = some '!' then .push 1
  else if mnemonic = "stp".toList ∧ line.getLast? = some '!' then .push 2
  else if mnemonic = "ldr".toList ∧ line.getLast? ≠ some ']' then .pop 1
  else if mnemonic = "ldp".toList ∧ line.getLast? ≠ some ']' then .pop 2
  else if "IF_".toList <+: line ∨ "WHILE_".toList <+: line then .label
  else .other

def readAll (text : String) : List Mark := (text.toList.splitOn '\n').map read

/-- The registers that runs of marks directly in front of calls move. `run` counts those of a run so far. -/
def beforeCalls (moved : Mark → Nat) (run : Nat) : List Mark → Nat
  | [] => 0
  | .call :: marks => run + beforeCalls moved 0 marks
  | mark :: marks => beforeCalls moved (if moved mark = 0 then 0 else run + moved mark) marks

/-- The registers that are pushed directly in front of calls. -/
def saved (marks : List Mark) : Nat := beforeCalls pushed 0 marks

/-- The registers that are popped directly behind calls, which is in front of them from the end. -/
def restored (marks : List Mark) : Nat := beforeCalls popped 0 marks.reverse

end Mark

def Label.numbered : Label → Bool
  | .ifTrue _ | .ifFalse _ | .ifExit _ | .loopCond _ | .loopBody _ | .loopExit _ => true
  | _ => false

def Line.mark : Line → Mark
  | .instr (.bl _) => .call
  | .instr (.svc _) => .trap
  | .instr (.push _) => .push 1
  | .instr (.pushPair _ _) => .push 2
  | .instr (.pop _) => .pop 1
  | .instr (.popPair _ _) => .pop 2
  | .label defined => if defined.numbered then .label else .other
  | _ => .other

namespace Mark

theorem read_instr (indent : Nat) (instr : Instr) :
    read (Line.text indent (.instr instr)).toList = (Line.instr instr).mark := by
  simp only [read, Line.text, unindent_pad]
  cases instr with
  | arith op => cases op <;> simp [Instr.text, toString, unindent, Line.mark, Arith.mnemonic]
  | load width dst address =>
    cases width <;> cases address <;>
      simp [Instr.text, toString, unindent, Line.mark, Width.loadMnemonic, Address.text, List.getLast?_cons]
  | store width src address =>
    cases width <;> cases address <;>
      simp [Instr.text, toString, unindent, Line.mark, Width.storeMnemonic, Address.text, List.getLast?_cons]
  | _ => simp [Instr.text, toString, unindent, Line.mark, List.getLast?_cons]

theorem read_directive (indent : Nat) (directive : Directive) :
    read (Line.text indent (.directive directive)).toList = .other := by
  simp only [read, unindent_directive]
  cases directive <;> simp [Directive.text, toString]

theorem read_label (indent : Nat) {label : Label} (h : label.Placed) :
    read (Line.text indent (.label label)).toList = (Line.label label).mark := by
  cases label with
  | named name =>
    -- No mnemonic and no label of a branch starts like a symbol.
    rcases h with hhead | hhead <;>
    · obtain ⟨rest, hrest⟩ := List.head?_eq_some_iff.mp hhead
      simp [read, Line.text, Label.text, unindent, hrest, Line.mark, Label.numbered]
  | datum kind id =>
    cases kind
    simp [read, Line.text, Label.text, toString, unindent, Line.mark, Label.numbered, DatumKind.text]
  | _ => simp [read, Line.text, Label.text, toString, unindent, Line.mark, Label.numbered]

end Mark

/-! ## Marks of code -/

namespace Code

def marks (code : Code) : List Mark := code.map Line.mark

@[simp] theorem marks_append (a b : Code) : marks (a ++ b) = marks a ++ marks b := List.map_append

@[simp] theorem marks_cons (line : Line) (code : Code) : marks (line :: code) = line.mark :: marks code := rfl

theorem readAll_render {code : Code} {indent : Nat} (hproper : ∀ line ∈ code, line.Proper)
    (hplaced : ∀ label ∈ code.labels, label.Placed) :
    Mark.readAll (code.render indent) = code.marks ++ [.other] := by
  have hread : ∀ line ∈ code, Mark.read (line.text indent).toList = line.mark := fun line hmem => by
    cases line with
    | instr instr => exact Mark.read_instr indent instr
    | directive directive => exact Mark.read_directive indent directive
    | label label => exact Mark.read_label indent (hplaced label (List.mem_filterMap.mpr ⟨_, hmem, rfl⟩))
  rw [Mark.readAll, splitOn_render hproper, List.map_append, List.map_map]
  exact congrArg (· ++ [Mark.other]) (List.map_congr_left hread)

end Code

end ArmBackend
