import ArmBackend.Proofs.Machine.Labels
import ArmBackend.Proofs.Machine.References

/-!
# Code under other labels

The labels of branches, loops and texts are numbered, and where the numbers start is not the business of the
code that they are in. A relabelling says how the numbers of one text become those of another.
-/

namespace ArmBackend

/-- Branches and loops are counted from their first ids, and a text has the id of its place in a table. Each
pair has the numbers of the first text on the left and those of the second on the right. -/
structure Relabelling where
  branches : Nat × Nat
  loops : Nat × Nat
  texts : List String × List String

namespace Relabelling

def shift (first : Nat × Nat) (id : Nat) : Option Nat :=
  if first.1 ≤ id then some (id - first.1 + first.2) else none

def textId (r : Relabelling) (id : Nat) : Option Nat := r.texts.1[id]?.bind r.texts.2.idxOf?

def label (r : Relabelling) : Label → Option Label
  | .named name => some (.named name)
  | .returnOf function => some (.returnOf function)
  | .ifTrue id => (shift r.branches id).map .ifTrue
  | .ifFalse id => (shift r.branches id).map .ifFalse
  | .ifExit id => (shift r.branches id).map .ifExit
  | .loopCond id => (shift r.loops id).map .loopCond
  | .loopBody id => (shift r.loops id).map .loopBody
  | .loopExit id => (shift r.loops id).map .loopExit
  | .datum kind id => (r.textId id).map (.datum kind)

def instr (r : Relabelling) : Instr → Option Instr
  | .adrp dst label => (r.label label).map (.adrp dst)
  | .addPageOffset dst src label => (r.label label).map (.addPageOffset dst src)
  | .b label => (r.label label).map .b
  | .bCond cond label => (r.label label).map (.bCond cond)
  | .cbnz reg label => (r.label label).map (.cbnz reg)
  | .bl label => (r.label label).map .bl
  | instr => some instr

def line (r : Relabelling) : Line → Option Line
  | .instr instr => (r.instr instr).map .instr
  | .directive directive => some (.directive directive)
  | .label label => (r.label label).map .label

/-- The code with the labels of the second text, if each label in it is one of the first. -/
def code (r : Relabelling) (code : Code) : Option Code := code.mapM r.line

/-- The second code is the first one with the labels of the second text. -/
def Turns (r : Relabelling) (a a' : Code) : Prop := r.code a = some a'

/-! ## Numbers -/

variable {r r' : Relabelling}

theorem shift_add (a b n : Nat) : shift (a, b) (a + n) = some (b + n) := by
  rw [shift, if_pos (Nat.le_add_right a n), Nat.add_sub_cancel_left, Nat.add_comm]

theorem label_branch {id id' : Nat} (h : shift r.branches id = some id') :
    r.label (.ifTrue id) = some (.ifTrue id') ∧ r.label (.ifFalse id) = some (.ifFalse id') ∧
      r.label (.ifExit id) = some (.ifExit id') := by
  simp only [label, h, Option.map_some, and_self]

theorem label_loop {id id' : Nat} (h : shift r.loops id = some id') :
    r.label (.loopCond id) = some (.loopCond id') ∧ r.label (.loopBody id) = some (.loopBody id') ∧
      r.label (.loopExit id) = some (.loopExit id') := by
  simp only [label, h, Option.map_some, and_self]

structure Later (r r' : Relabelling) : Prop where
  branches : r'.branches = r.branches
  loops : r'.loops = r.loops
  left : r.texts.1 <+: r'.texts.1
  right : r.texts.2 <+: r'.texts.2

namespace Later

theorem refl (r : Relabelling) : r.Later r := ⟨rfl, rfl, List.prefix_rfl, List.prefix_rfl⟩

theorem trans {r'' : Relabelling} (h : r.Later r') (h' : r'.Later r'') : r.Later r'' :=
  ⟨h'.branches.trans h.branches, h'.loops.trans h.loops, h.left.trans h'.left, h.right.trans h'.right⟩

theorem textId {id other : Nat} (h : r.Later r') (hid : r.textId id = some other) :
    r'.textId id = some other := by
  obtain ⟨text, htext, hother⟩ := Option.bind_eq_some_iff.mp hid
  obtain ⟨hlt, rfl⟩ := List.getElem?_eq_some_iff.mp htext
  exact Option.bind_eq_some_iff.mpr
    ⟨_, List.prefix_iff_getElem?.mp h.left id hlt, h.right.findIdx?_eq_some hother⟩

theorem label {l l' : Label} (h : r.Later r') (hl : r.label l = some l') : r'.label l = some l' := by
  cases l with
  | datum kind id =>
    obtain ⟨other, hother, rfl⟩ := Option.map_eq_some_iff.mp hl
    exact Option.map_eq_some_iff.mpr ⟨other, h.textId hother, rfl⟩
  | _ => simpa only [Relabelling.label, h.branches, h.loops] using hl

theorem instr {i i' : Instr} (h : r.Later r') (hi : r.instr i = some i') : r'.instr i = some i' := by
  cases i with
  | adrp | addPageOffset | b | bCond | cbnz | bl =>
    obtain ⟨label, hlabel, rfl⟩ := Option.map_eq_some_iff.mp hi
    exact Option.map_eq_some_iff.mpr ⟨label, h.label hlabel, rfl⟩
  | _ => exact hi

theorem line {l l' : Line} (h : r.Later r') (hl : r.line l = some l') : r'.line l = some l' := by
  cases l with
  | instr i =>
    obtain ⟨instr, hinstr, rfl⟩ := Option.map_eq_some_iff.mp hl
    exact Option.map_eq_some_iff.mpr ⟨instr, h.instr hinstr, rfl⟩
  | directive => exact hl
  | label l =>
    obtain ⟨label, hlabel, rfl⟩ := Option.map_eq_some_iff.mp hl
    exact Option.map_eq_some_iff.mpr ⟨label, h.label hlabel, rfl⟩

theorem turns {c c' : Code} (h : r.Later r') (hc : r.Turns c c') : r'.Turns c c' := by
  induction c generalizing c' with
  | nil => exact hc
  | cons l c ih =>
    rw [Turns, Relabelling.code, List.mapM_cons] at hc ⊢
    obtain ⟨l', hl, hrest⟩ := Option.bind_eq_some_iff.mp hc
    obtain ⟨rest, hrest, hc⟩ := Option.bind_eq_some_iff.mp hrest
    exact Option.bind_eq_some_iff.mpr
      ⟨l', h.line hl, Option.bind_eq_some_iff.mpr ⟨rest, ih hrest, hc⟩⟩

end Later

/-! ## Code -/

namespace Turns

variable {a a' b b' : Code} {l l' : Label}

theorem nil : r.Turns [] [] := rfl

theorem later (h : r.Turns a a') (hlater : r.Later r') : r'.Turns a a' := hlater.turns h

theorem cons {line line' : Line} (hline : r.line line = some line') (h : r.Turns a a') :
    r.Turns (line :: a) (line' :: a') := by
  rw [Turns, code] at h ⊢
  rw [List.mapM_cons, hline, h]
  rfl

theorem append (ha : r.Turns a a') (hb : r.Turns b b') : r.Turns (a ++ b) (a' ++ b') := by
  rw [Turns, code] at ha hb ⊢
  rw [List.mapM_append, ha, hb]
  rfl

theorem label (hl : r.label l = some l') : r.Turns [.label l] [.label l'] := by
  refine cons ?_ nil
  rw [line, hl]
  rfl

theorem branch (hl : r.label l = some l') :
    r.Turns (Code.ofInstrs [.b l]) (Code.ofInstrs [.b l']) := by
  refine cons ?_ nil
  rw [line, instr, hl]
  rfl

theorem branchIf (cond : Cond) (hl : r.label l = some l') :
    r.Turns [.instr (.bCond cond l)] [.instr (.bCond cond l')] := by
  refine cons ?_ nil
  rw [line, instr, hl]
  rfl

theorem labelAddress (dst : Register) (hl : r.label l = some l') :
    r.Turns (Code.labelAddress dst l) (Code.labelAddress dst l') := by
  refine cons ?_ (cons ?_ nil) <;> rw [line, instr, hl] <;> rfl

end Turns

end Relabelling

/-! ## Code without labels -/

namespace Code

structure Inert (code : Code) : Prop where
  labels : code.labels = []
  references : code.references = []

theorem Inert.append {a b : Code} (ha : Inert a) (hb : Inert b) : Inert (a ++ b) where
  labels := by rw [labels_append, ha.labels, hb.labels, List.append_nil]
  references := by rw [references_append, ha.references, hb.references, List.append_nil]

theorem Inert.turns {code : Code} (h : Inert code) {r : Relabelling} : r.Turns code code := by
  induction code with
  | nil => exact .nil
  | cons line code ih =>
    obtain ⟨hlabels, hreferences⟩ := h
    cases line with
    | label label => cases hlabels
    | directive directive => exact .cons rfl (ih ⟨hlabels, hreferences⟩)
    | instr instr =>
      rw [references_instr, List.append_eq_nil_iff] at hreferences
      refine .cons ?_ (ih ⟨hlabels, hreferences.2⟩)
      cases instr with
      | adrp | addPageOffset | b | bCond | cbnz | bl => cases hreferences.1
      | _ => rfl

variable {code : Code} {dst src : Register} {source target res : Reservation}

theorem labels_move : labels (move dst src) = [] := by
  rw [move]
  split <;> rfl

theorem labels_slotAddress (offset : Int) : labels (slotAddress dst offset).1 = [] := by
  rw [slotAddress]
  split
  · rfl
  · exact labels_frameAddress dst offset

theorem labels_loadSlot (offset : Int) (ty : Ty) : labels (loadSlot dst offset ty) = [] := by
  simp [loadSlot, labels_slotAddress]

theorem labels_storeSlot (offset : Int) (ty : Ty) : labels (storeSlot src offset ty) = [] := by
  simp [storeSlot, labels_slotAddress]

theorem inert_frameAddress (offset : Int) : Inert (frameAddress dst offset) :=
  ⟨labels_frameAddress dst offset, references_frameAddress offset⟩

theorem inert_copy (h : copy source target = .ok code) : Inert code := by
  refine ⟨?_, references_copy h⟩
  rw [copy] at h
  split at h
  · cases h
    rfl
  · split at h <;> cases h <;> simp [labels_move, labels_loadSlot, labels_storeSlot]

theorem inert_putConstant {bits : Word} (h : putConstant target bits = .ok code) : Inert code := by
  refine ⟨?_, references_putConstant h⟩
  rw [putConstant] at h
  split at h <;> cases h <;> simp [constant, labels_storeSlot]

theorem inert_operandOf {reg : Register} (h : operandOf res = .ok (code, reg)) : Inert code := by
  rw [operandOf] at h
  split at h
  · cases h
    exact ⟨rfl, rfl⟩
  · obtain ⟨copyCode, hcopy, h₁⟩ := StepM.outcome_bind_eq_ok.mp h
    cases h₁
    exact inert_copy hcopy

theorem inert_truncate (ty : Ty) : Inert (truncate ty dst) := by
  rw [truncate]
  split <;> exact ⟨rfl, rfl⟩

theorem inert_saveRegs (regs : List Register) : Inert (saveRegs regs) :=
  ⟨labels_ofInstrs _, references_saveRegs regs⟩

theorem inert_restoreRegs (regs : List Register) : Inert (restoreRegs regs) :=
  ⟨labels_ofInstrs _, references_restoreRegs regs⟩

end Code

open Code (Inert)

theorem BinOp.inert_code {op : BinOp} {target lhs rhs : Reservation} {code : Code}
    (h : op.code target lhs rhs = .ok code) : Inert code := by
  refine ⟨?_, BinOp.references_code h⟩
  obtain ⟨setup, hsetup, h₁⟩ := StepM.outcome_bind_eq_ok.mp h
  obtain ⟨⟨load, src⟩, hload, h₂⟩ := StepM.outcome_bind_eq_ok.mp h₁
  obtain ⟨finish, hfinish, h₃⟩ := StepM.outcome_bind_eq_ok.mp h₂
  cases h₃
  simp [(Code.inert_copy hsetup).labels, (Code.inert_operandOf hload).labels,
    (Code.inert_truncate _).labels, (Code.inert_copy hfinish).labels]

theorem UnOp.inert_code {op : UnOp} {target operand : Reservation} {code : Code}
    (h : op.code target operand = .ok code) : Inert code := by
  refine ⟨?_, UnOp.references_code h⟩
  rw [UnOp.code_eq] at h
  obtain ⟨⟨load, src⟩, hload, h₁⟩ := StepM.outcome_bind_eq_ok.mp h
  obtain ⟨compute, hcompute, h₂⟩ := StepM.outcome_bind_eq_ok.mp h₁
  obtain ⟨finish, hfinish, h₃⟩ := StepM.outcome_bind_eq_ok.mp h₂
  cases h₃
  have hnone : compute.labels = [] := by
    cases op with
    | deref =>
      simp only [UnOp.compute] at hcompute
      split at hcompute <;> cases hcompute
      rfl
    | addrOf => cases hcompute
    | _ =>
      cases hcompute
      simp [(Code.inert_truncate _).labels]
  simp [(Code.inert_operandOf hload).labels, hnone, (Code.inert_copy hfinish).labels]

namespace FrameLayout

variable (layout : FrameLayout)

theorem inert_prologue : Inert layout.prologue := by
  refine ⟨?_, layout.references_prologue⟩
  rw [prologue]
  split <;> split <;> simp [Code.labels_adjustStack]

theorem inert_epilogue : Inert layout.epilogue := by
  refine ⟨?_, layout.references_epilogue⟩
  rw [epilogue]
  split <;> split <;> simp [Code.labels_adjustStack]

end FrameLayout

end ArmBackend
