import ArmBackend.Proofs.Machine.Marks

/-!
# Counting in code

How many lines of code call out, how many registers they save and restore around calls, and how many labels
of branches and loops they define. Counts add up where code is put together. Code that moves values and
computes with them has nothing that is counted.
-/

namespace ArmBackend

namespace Mark

variable {moved : Mark → Nat} {marks marks' : List Mark} {mark : Mark} {m n : Nat}

/-- The runs in front of the calls among these lines move `count` registers, and no run goes on behind them. -/
def Moves (moved : Mark → Nat) (count : Nat) (marks : List Mark) : Prop :=
  ∀ rest, beforeCalls moved 0 (marks ++ rest) = count + beforeCalls moved 0 rest

theorem beforeCalls_cons (hne : mark ≠ .call) (run : Nat) (marks : List Mark) :
    beforeCalls moved run (mark :: marks) =
      beforeCalls moved (if moved mark = 0 then 0 else run + moved mark) marks := by
  cases mark <;> first | rfl | exact absurd rfl hne

namespace Moves

theorem nil : Moves moved 0 [] := fun _ => (Nat.zero_add _).symm

theorem append (h : Moves moved m marks) (h' : Moves moved n marks') : Moves moved (m + n) (marks ++ marks') :=
  fun rest => by rw [List.append_assoc, h, h', Nat.add_assoc]

theorem of_last (marks : List Mark) (hcalls : .call ∉ marks) (hne : mark ≠ .call) (hmoved : moved mark = 0) :
    Moves moved 0 (marks ++ [mark]) := by
  have hrun : ∀ run rest, beforeCalls moved run (marks ++ mark :: rest) = beforeCalls moved 0 rest := by
    induction marks with
    | nil => exact fun run rest => by rw [List.nil_append, beforeCalls_cons hne, if_pos hmoved]
    | cons first marks ih =>
      rw [List.mem_cons, not_or] at hcalls
      exact fun run rest => by rw [List.cons_append, beforeCalls_cons (Ne.symm hcalls.1), ih hcalls.2]
  intro rest
  rw [List.append_assoc, List.singleton_append, hrun, Nat.zero_add]

theorem of_forall (h : ∀ mark ∈ marks, mark ≠ .call ∧ moved mark = 0) : Moves moved 0 marks := by
  induction marks with
  | nil => exact nil
  | cons mark marks ih =>
    obtain ⟨hfirst, hrest⟩ := List.forall_mem_cons.mp h
    exact (of_last [] List.not_mem_nil hfirst.1 hfirst.2).append (ih hrest)

end Moves

end Mark

open Mark (Moves)

namespace Code

variable {a b code : Code}

/-! ## Lines that are not counted -/

def Silent (code : Code) : Prop := ∀ line ∈ code, line.mark = .other

@[simp] theorem silent_nil : Silent [] := fun _ hmem => absurd hmem List.not_mem_nil

@[simp] theorem silent_cons {line : Line} : Silent (line :: code) ↔ line.mark = .other ∧ Silent code :=
  List.forall_mem_cons

@[simp] theorem silent_append : Silent (a ++ b) ↔ Silent a ∧ Silent b := List.forall_mem_append

@[simp] theorem silent_ofInstrs {instrs : List Instr} :
    Silent (ofInstrs instrs) ↔ ∀ instr ∈ instrs, (Line.instr instr).mark = .other := List.forall_mem_map

variable {dst src : Register} {source target res : Reservation}

@[simp] theorem silent_move : Silent (move dst src) := by
  rw [move]
  split <;> simp [Line.mark]

@[simp] theorem silent_constant (bits : Word) : Silent (constant dst bits) := by
  rw [constant, silent_ofInstrs]
  refine List.forall_mem_cons.mpr ⟨rfl, fun instr hinstr => ?_⟩
  obtain ⟨shift, -, hshift⟩ := List.mem_filterMap.mp hinstr
  split at hshift <;> cases hshift
  rfl

@[simp] theorem silent_frameAddress (offset : Int) : Silent (frameAddress dst offset) := by
  simp only [frameAddress]
  split <;> simp [Line.mark]

@[simp] theorem silent_slotAddress (offset : Int) : Silent (slotAddress dst offset).1 := by
  rw [slotAddress]
  split
  · exact silent_nil
  · exact silent_frameAddress offset

@[simp] theorem silent_labelAddress (label : Label) : Silent (labelAddress dst label) := by
  simp [labelAddress, Line.mark]

@[simp] theorem silent_loadSlot (offset : Int) (ty : Ty) : Silent (loadSlot dst offset ty) := by
  simp [loadSlot, Line.mark]

@[simp] theorem silent_storeSlot (offset : Int) (ty : Ty) : Silent (storeSlot src offset ty) := by
  simp [storeSlot, Line.mark]

@[simp] theorem silent_storeThrough (address : Register) (ty : Ty) : Silent (storeThrough src address ty) := by
  simp [storeThrough, Line.mark]

@[simp] theorem silent_truncate (ty : Ty) : Silent (truncate ty dst) := by
  rw [truncate]
  split <;> simp [Line.mark]

theorem silent_copy (h : copy source target = .ok code) : Silent code := by
  rw [copy] at h
  split at h
  · cases h
    exact silent_nil
  · split at h <;> cases h <;> simp

theorem silent_putConstant {bits : Word} (h : putConstant target bits = .ok code) : Silent code := by
  rw [putConstant] at h
  split at h <;> cases h <;> simp

theorem silent_operandOf {reg : Register} (h : operandOf res = .ok (code, reg)) : Silent code := by
  rw [operandOf] at h
  split at h
  · cases h
    exact silent_nil
  · obtain ⟨copyCode, hcopy, h₁⟩ := StepM.outcome_bind_eq_ok.mp h
    cases h₁
    exact silent_copy hcopy

@[simp] theorem silent_adjustStack (change : StackChange) (size : Nat) : Silent (adjustStack change size) := by
  simp only [adjustStack]
  split
  · cases change <;> simp [Line.mark]
  · split <;> cases change <;> simp [Line.mark]

end Code

theorem BinOp.silent_code {op : BinOp} {target lhs rhs : Reservation} {code : Code}
    (h : op.code target lhs rhs = .ok code) : code.Silent := by
  obtain ⟨setup, hsetup, h₁⟩ := StepM.outcome_bind_eq_ok.mp h
  obtain ⟨⟨load, src⟩, hload, h₂⟩ := StepM.outcome_bind_eq_ok.mp h₁
  obtain ⟨finish, hfinish, h₃⟩ := StepM.outcome_bind_eq_ok.mp h₂
  cases h₃
  cases op <;>
    simp [Code.silent_copy hsetup, Code.silent_operandOf hload, Code.silent_copy hfinish, Line.mark]

theorem UnOp.silent_code {op : UnOp} {target operand : Reservation} {code : Code}
    (h : op.code target operand = .ok code) : code.Silent := by
  rw [UnOp.code_eq] at h
  obtain ⟨⟨load, src⟩, hload, h₁⟩ := StepM.outcome_bind_eq_ok.mp h
  obtain ⟨compute, hcompute, h₂⟩ := StepM.outcome_bind_eq_ok.mp h₁
  obtain ⟨finish, hfinish, h₃⟩ := StepM.outcome_bind_eq_ok.mp h₂
  cases h₃
  have hsilent : compute.Silent := by
    cases op with
    | deref =>
      simp only [UnOp.compute] at hcompute
      split at hcompute <;> cases hcompute
      simp [Code.loadThrough, Line.mark]
    | addrOf => cases hcompute
    | _ =>
      cases hcompute
      simp [Line.mark]
  simp [Code.silent_operandOf hload, hsilent, Code.silent_copy hfinish]

@[simp] theorem Options.silent_functionHeader (options : Options) (name : String) :
    (options.functionHeader name).Silent := by
  simp only [functionHeader]
  split <;> simp [Line.mark, functionLabel, Label.numbered]

/-! ## Counts of code -/

namespace Code

structure Tallied (code : Code) (calls saves labels : Nat) : Prop where
  calls : code.marks.countP Mark.callsOut = calls
  labels : code.marks.count .label = labels
  saved : Moves Mark.pushed saves code.marks
  restored : Moves Mark.popped saves code.marks.reverse

namespace Tallied

variable {a b code : Code} {calls calls' saves saves' labels labels' : Nat}

theorem counts (h : Tallied code calls saves labels) :
    (code.marks ++ [Mark.other]).countP Mark.callsOut = calls ∧
      Mark.saved (code.marks ++ [Mark.other]) = saves ∧ Mark.restored (code.marks ++ [Mark.other]) = saves := by
  refine ⟨?_, ?_, ?_⟩
  · rw [List.countP_append, h.calls]
    rfl
  · exact h.saved [Mark.other]
  · rw [Mark.restored, List.reverse_append, ← List.append_nil (List.reverse code.marks)]
    exact h.restored []

theorem append (ha : Tallied a calls saves labels) (hb : Tallied b calls' saves' labels') :
    Tallied (a ++ b) (calls + calls') (saves + saves') (labels + labels') where
  calls := by rw [marks_append, List.countP_append, ha.calls, hb.calls]
  labels := by rw [marks_append, List.count_append, ha.labels, hb.labels]
  saved := by
    rw [marks_append]
    exact ha.saved.append hb.saved
  restored := by
    rw [marks_append, List.reverse_append, Nat.add_comm]
    exact hb.restored.append ha.restored

theorem of_silent (h : code.Silent) : Tallied code 0 0 0 := by
  have hmarks : ∀ mark ∈ code.marks, mark = .other := List.forall_mem_map.mpr h
  refine ⟨?_, ?_, .of_forall fun mark hmem => ?_, .of_forall fun mark hmem => ?_⟩
  · refine List.countP_eq_zero.mpr fun mark hmem => ?_
    rw [hmarks mark hmem]
    exact Bool.false_ne_true
  · exact List.count_eq_zero.mpr fun hmem => nomatch hmarks _ hmem
  · cases hmarks mark hmem
    exact ⟨nofun, rfl⟩
  · cases hmarks mark (List.mem_reverse.mp hmem)
    exact ⟨nofun, rfl⟩

theorem label {label : Label} (h : label.numbered = true) : Tallied [.label label] 0 0 1 := by
  have hmarks : marks [.label label] = [.label] := by simp [marks, Line.mark, h]
  refine ⟨?_, ?_, ?_, ?_⟩ <;> rw [hmarks]
  · rfl
  · rfl
  · exact .of_forall (by simp [Mark.pushed])
  · exact .of_forall (by simp [Mark.popped])

theorem trap (imm : Nat) : Tallied (ofInstrs [.svc imm]) 1 0 0 :=
  ⟨rfl, rfl, .of_forall (by simp [marks, ofInstrs, Line.mark, Mark.pushed]),
    .of_forall (by simp [marks, ofInstrs, Line.mark, Mark.popped])⟩

theorem pop_of_silent {line : Line} (hline : line.mark = .other) (h : code.Silent) (first second : Register) :
    Tallied (line :: code ++ ofInstrs [.popPair first second]) 0 0 0 := by
  have hmarks : marks (line :: code ++ ofInstrs [.popPair first second]) = (.other :: code.marks) ++ [.pop 2] := by
    rw [marks_append, marks_cons, hline]
    rfl
  have hcode : ∀ mark ∈ code.marks, mark = .other := List.forall_mem_map.mpr h
  refine ⟨?_, ?_, ?_, ?_⟩ <;> rw [hmarks]
  · have hcount : code.marks.countP Mark.callsOut = 0 := (of_silent h).calls
    rw [List.countP_append, List.countP_cons, hcount]
    rfl
  · have hcount : code.marks.count .label = 0 := (of_silent h).labels
    rw [List.count_append, List.count_cons, hcount]
    rfl
  · refine .of_forall (List.forall_mem_append.mpr ⟨List.forall_mem_cons.mpr ⟨⟨nofun, rfl⟩, fun mark hmem => ?_⟩,
      List.forall_mem_singleton.mpr ⟨nofun, rfl⟩⟩)
    cases hcode mark hmem
    exact ⟨nofun, rfl⟩
  · have hreverse : (.other :: code.marks ++ [.pop 2] : List Mark).reverse =
        (.pop 2 :: code.marks.reverse) ++ [.other] := by
      simp
    rw [hreverse]
    refine .of_last _ (fun hmem => ?_) nofun rfl
    rcases List.mem_cons.mp hmem with heq | hmem
    · cases heq
    · cases hcode _ (List.mem_reverse.mp hmem)

end Tallied

/-! ## Calls -/

theorem beforeCalls_saveRegs (regs : List Register) (run : Nat) (rest : List Mark) :
    Mark.beforeCalls Mark.pushed run (marks (saveRegs regs) ++ rest) =
      Mark.beforeCalls Mark.pushed (run + regs.length) rest := by
  induction regs using pushes.induct generalizing run with
  | case1 => rfl
  | case2 reg => rfl
  | case3 first second regs ih =>
    change Mark.beforeCalls Mark.pushed (run + 2) (marks (saveRegs regs) ++ rest) = _
    rw [ih, List.length_cons, List.length_cons, Nat.add_assoc, Nat.add_comm 2]

theorem marks_restoreRegs_pair (first second : Register) (regs : List Register) :
    marks (restoreRegs (first :: second :: regs)) = marks (restoreRegs regs) ++ [.pop 2] := by
  simp [restoreRegs, pops, ofInstrs, marks, Line.mark]

theorem beforeCalls_restoreRegs (regs : List Register) (run : Nat) (rest : List Mark) :
    Mark.beforeCalls Mark.popped run ((marks (restoreRegs regs)).reverse ++ rest) =
      Mark.beforeCalls Mark.popped (run + regs.length) rest := by
  induction regs using pops.induct generalizing run with
  | case1 => rfl
  | case2 reg => rfl
  | case3 first second regs ih =>
    rw [marks_restoreRegs_pair, List.reverse_append, List.append_assoc]
    change Mark.beforeCalls Mark.popped (run + 2) ((marks (restoreRegs regs)).reverse ++ rest) = _
    rw [ih, List.length_cons, List.length_cons, Nat.add_assoc, Nat.add_comm 2]

theorem marks_saveRegs (regs : List Register) : ∀ mark ∈ marks (saveRegs regs), ∃ count, mark = .push count := by
  induction regs using pushes.induct with
  | case1 => exact fun _ hmem => absurd hmem List.not_mem_nil
  | case2 reg => exact List.forall_mem_singleton.mpr ⟨1, rfl⟩
  | case3 first second regs ih => exact List.forall_mem_cons.mpr ⟨⟨2, rfl⟩, ih⟩

theorem marks_restoreRegs (regs : List Register) :
    ∀ mark ∈ marks (restoreRegs regs), ∃ count, mark = .pop count := by
  induction regs using pops.induct with
  | case1 => exact fun _ hmem => absurd hmem List.not_mem_nil
  | case2 reg => exact List.forall_mem_singleton.mpr ⟨1, rfl⟩
  | case3 first second regs ih =>
    rw [marks_restoreRegs_pair]
    exact List.forall_mem_append.mpr ⟨ih, List.forall_mem_singleton.mpr ⟨2, rfl⟩⟩

theorem Tallied.call (label : Label) (live : List Register) :
    Tallied (saveRegs live ++ ofInstrs [.bl label] ++ restoreRegs live) 1 live.length 0 := by
  have hpush := marks_saveRegs live
  have hpop := marks_restoreRegs live
  have hmarks : marks (saveRegs live ++ ofInstrs [.bl label] ++ restoreRegs live) =
      marks (saveRegs live) ++ .call :: marks (restoreRegs live) := by
    simp [ofInstrs, Line.mark]
  have hpushed : Moves Mark.pushed 0 (marks (restoreRegs live)) := .of_forall fun mark hmem => by
    obtain ⟨count, rfl⟩ := hpop mark hmem
    exact ⟨by simp, rfl⟩
  have hpopped : Moves Mark.popped 0 (marks (saveRegs live)).reverse := .of_forall fun mark hmem => by
    obtain ⟨count, rfl⟩ := hpush mark (List.mem_reverse.mp hmem)
    exact ⟨by simp, rfl⟩
  refine ⟨?_, ?_, fun rest => ?_, fun rest => ?_⟩ <;> rw [hmarks]
  · have hsave : (marks (saveRegs live)).countP Mark.callsOut = 0 := List.countP_eq_zero.mpr fun mark hmem => by
      obtain ⟨count, rfl⟩ := hpush mark hmem
      exact Bool.false_ne_true
    have hrestore : (marks (restoreRegs live)).countP Mark.callsOut = 0 :=
      List.countP_eq_zero.mpr fun mark hmem => by
        obtain ⟨count, rfl⟩ := hpop mark hmem
        exact Bool.false_ne_true
    rw [List.countP_append, List.countP_cons, hsave, hrestore]
    rfl
  · refine List.count_eq_zero.mpr fun hmem => ?_
    rcases List.mem_append.mp hmem with hmem | hmem
    · obtain ⟨count, heq⟩ := hpush _ hmem
      cases heq
    · obtain ⟨count, heq⟩ := hpop _ ((List.mem_cons.mp hmem).resolve_left (by simp))
      cases heq
  · rw [List.append_assoc, beforeCalls_saveRegs, List.cons_append, Mark.beforeCalls, hpushed, Nat.zero_add,
      Nat.zero_add]
  · rw [List.reverse_append, List.reverse_cons, List.append_assoc, List.append_assoc, beforeCalls_restoreRegs,
      List.singleton_append, Mark.beforeCalls, hpopped, Nat.zero_add, Nat.zero_add]

end Code

/-! ## Prologue and epilogue -/

namespace FrameLayout

open Code (Tallied)

theorem prologue_tallied (layout : FrameLayout) : Tallied layout.prologue 0 0 0 := by
  have hrecord : Tallied (Code.ofInstrs [.pushPair .framePointer .linkRegister, .mov .framePointer .stackPointer])
      0 0 0 :=
    ⟨rfl, rfl, .of_last [.push 2] (by simp) nofun rfl,
      .of_forall (by simp [Code.marks, Code.ofInstrs, Line.mark, Mark.popped])⟩
  rw [prologue]
  refine .append ?_ (.of_silent ?_)
  · split
    · exact hrecord
    · exact .of_silent Code.silent_nil
  · split <;> simp

theorem epilogue_tallied (layout : FrameLayout) (label : Label) (h : label.numbered = false) :
    Tallied (.label label :: layout.epilogue) 0 0 0 := by
  have hlabel : (Line.label label).mark = .other := by simp [Line.mark, h]
  have hshrink : (if 0 < layout.localsSize then Code.adjustStack .shrink layout.localsSize else []).Silent := by
    split <;> simp
  rw [epilogue, ← List.cons_append, ← List.cons_append]
  refine .append ?_ (.of_silent (by simp [Line.mark]))
  cases layout.savesRecord with
  | true => exact .pop_of_silent hlabel hshrink _ _
  | false =>
    rw [if_neg Bool.false_ne_true, List.append_nil]
    exact .of_silent (Code.silent_cons.mpr ⟨hlabel, hshrink⟩)

end FrameLayout

end ArmBackend
