import ArmBackend.Proofs.Function.Inversion
import ArmBackend.Proofs.Program.Lines
import ArmBackend.Proofs.Stmt.Tally

/-!
# Statistics of a unit

The statistics of a compilation say what the text has: how many calls and traps, registers that are saved and
restored around calls, and labels of branches and loops.
-/

namespace ArmBackend

open Session (Tallies onFrame_stats)

variable {σ τ : Session} {code : Code}

/-! ## Functions -/

namespace Function

theorem bindParams_tallies {params : List Param} {regs : List Register}
    (h : (bindParams params regs).run σ = (.ok code, τ)) : Tallies code σ τ := by
  induction params generalizing σ code regs with
  | nil =>
    cases h
    exact .nil rfl
  | cons param params ih =>
    cases regs with
    | nil => cases h
    | cons reg regs =>
      obtain ⟨slot, copyCode, restCode, σ₁, hslot, hcopy, hrest, rfl⟩ := bindParams_cons_ok h
      exact (Tallies.of_silent (Code.silent_copy hcopy) (onFrame_stats hslot)).append (ih hrest)

theorem lowerBody_tallies {function : Function} (h : function.lowerBody.run σ = (.ok code, τ)) :
    Tallies code σ τ := by
  obtain ⟨paramCode, bodyCode, returnCode, σ₁, σ₂, hparams, hbody, hreturn, rfl⟩ := lowerBody_ok h
  have hreturned : Tallies returnCode σ₂ τ := by
    rcases implicitReturn_ok hreturn with ⟨-, hret⟩ | ⟨-, rfl, rfl⟩
    · exact Stmt.lower_tallies _ hret
    · exact .nil rfl
  exact ((bindParams_tallies hparams).append (Stmt.lowerBlock_tallies hbody)).append hreturned

theorem recordFunction_gains (name : String) (frame : Frame) (frameSize : Nat) (σ : Session) :
    σ.stats.Gains 1 0 0 0 (Session.recordFunction name frame frameSize σ).stats := by
  simp only [Session.recordFunction, Stats.recordFunction]
  split <;> exact ⟨rfl, rfl, rfl, rfl⟩

/-- A function records itself and what its code has to count. -/
theorem compile_tallies {function : Function} (h : function.compile.run σ = (.ok code, τ)) :
    ∃ calls saves labels, code.Tallied calls saves labels ∧ σ.stats.Gains 1 calls saves labels τ.stats := by
  obtain ⟨bodyCode, frame, layout, σ₁, frames, hbody, -, -, rfl, rfl⟩ := compile_ok h
  obtain ⟨calls, saves, labels, hcode, hgains⟩ := lowerBody_tallies hbody
  have hheader := Code.Tallied.of_silent (σ₁.options.silent_functionHeader function.name)
  have hall := ((hheader.append layout.prologue_tallied).append hcode).append
    (layout.epilogue_tallied (.returnOf function.name) rfl)
  simp only [Nat.zero_add, Nat.add_zero] at hall
  have hrecord := recordFunction_gains function.name frame layout.totalSize { σ₁ with frames }
  have hgained := hgains.trans hrecord
  exact ⟨calls, saves, labels, hall, hgained⟩

end Function

/-! ## Units -/

namespace Program

variable {functions : List Function} {program : Program}

theorem compileFunctions_tallies (h : (compileFunctions functions).run σ = (.ok code, τ)) :
    ∃ calls saves labels, code.Tallied calls saves labels ∧
      σ.stats.Gains functions.length calls saves labels τ.stats := by
  induction functions generalizing σ code with
  | nil =>
    cases h
    exact ⟨0, 0, 0, .of_silent Code.silent_nil, .refl _⟩
  | cons function functions ih =>
    obtain ⟨functionCode, restCode, σ₁, hfunction, hrest, rfl⟩ := compileFunctions_cons_ok h
    obtain ⟨_, _, _, hcode, hgains⟩ := Function.compile_tallies hfunction
    obtain ⟨_, _, _, hcode', hgains'⟩ := ih hrest
    have hall := hgains.trans hgains'
    rw [Nat.add_comm 1] at hall
    exact ⟨_, _, _, hcode.append hcode', hall⟩

theorem label_not_mem_marks {code : Code} (h : ∀ label ∈ code.labels, label.numbered = false) :
    .label ∉ code.marks := by
  intro hmem
  obtain ⟨line, hline, hmark⟩ := List.mem_map.mp hmem
  cases line with
  | instr instr => cases instr <;> cases hmark
  | directive directive => cases hmark
  | label label =>
    rw [Line.mark, h label (List.mem_filterMap.mpr ⟨_, hline, rfl⟩)] at hmark
    cases hmark

theorem count_label_code (parts : Parts) (options : Options) :
    (parts.code options).marks.count .label = (Code.marks parts.functions.flatten).count .label := by
  have hhelpers : .label ∉ Code.marks (parts.helpers.map (Builtin.code · options)).flatten := by
    refine label_not_mem_marks fun label hmem => ?_
    rw [Code.labels_flatten, List.mem_flatMap] at hmem
    obtain ⟨code, hcode, hmem⟩ := hmem
    obtain ⟨builtin, -, rfl⟩ := List.mem_map.mp hcode
    obtain ⟨name, rfl⟩ := builtin.exists_named_of_mem hmem
    rfl
  have hdata : .label ∉ parts.data.code.marks := by
    refine label_not_mem_marks fun label hmem => ?_
    rw [StaticData.labels_code] at hmem
    obtain ⟨id, -, rfl⟩ := List.mem_map.mp hmem
    rfl
  rw [Parts.code, Parts.sections, List.flatten_append, Code.marks_append, Code.marks_cons, Code.marks_append,
    List.count_append, List.count_cons, List.count_append, List.count_eq_zero.mpr hhelpers,
    List.count_eq_zero.mpr hdata]
  rfl

/-- The statistics agree with the text. Functions are counted one by one. Lines that call or trap are counted
in the text of the functions, as are the registers that are pushed directly in front of calls and popped directly
behind them. Labels of branches and loops are counted in the whole text. -/
theorem statistics_agree (hnames : program.Identified)
    (h : program.compile.run (Session.start {}) = (.ok code, τ)) :
    ∃ parts : Parts, code = parts.code {} ∧ List.Forall₂ (Compiles {}) program.functions parts.functions ∧
      τ.stats.functions = program.functions.length ∧
      (let marks := Mark.readAll (τ.render parts.functions.flatten)
      τ.stats.calls = marks.countP Mark.callsOut ∧ τ.stats.saves = Mark.saved marks ∧
        τ.stats.saves = Mark.restored marks) ∧
      τ.stats.labels = (Mark.readAll (τ.render code)).count .label := by
  obtain ⟨parts, rfl, hhelpers, hdata, hrun, hfunctions, hunique⟩ := compile_parts h
  have hproper : ∀ line ∈ parts.code {}, line.Proper := by
    obtain ⟨parts', heq, hresolves⟩ := resolves_of_compile rfl h
    rw [heq]
    exact hresolves.proper rfl hnames
  obtain ⟨hof, -⟩ := compileFunctions_labels (σ := program.tables {}) rfl hunique hrun
  have hplaced : ∀ label ∈ (parts.code {}).labels, label.Placed := placed_of_mem rfl hof
  have hsublist : List.Sublist parts.functions.flatten (parts.code {}) := by
    rw [Parts.code, Parts.sections, List.flatten_append]
    exact ((List.sublist_append_left _ _).cons _).trans (List.sublist_append_left _ _)
  have hoptions : τ.options = {} := (compileFunctions_follows hrun).options
  have hmarks : Mark.readAll (τ.render parts.functions.flatten) = Code.marks parts.functions.flatten ++ [.other] :=
    Code.readAll_render (fun line hmem => hproper line (hsublist.subset hmem))
      fun label hmem => hplaced label ((hsublist.filterMap _).subset hmem)
  have hmarks' : Mark.readAll (τ.render (parts.code {})) = (parts.code {}).marks ++ [.other] :=
    Code.readAll_render hproper hplaced
  obtain ⟨calls, saves, labels, hcode, hgains⟩ := compileFunctions_tallies hrun
  obtain ⟨hcalls, hsaved, hrestored⟩ := hcode.counts
  refine ⟨parts, rfl, hfunctions, hgains.functions.trans (Nat.zero_add _), ?_, ?_⟩
  · simp only [hmarks, hcalls, hsaved, hrestored]
    exact ⟨hgains.calls.trans (Nat.zero_add _), hgains.saves.trans (Nat.zero_add _),
      hgains.saves.trans (Nat.zero_add _)⟩
  · rw [hmarks', List.count_append, count_label_code, hcode.labels]
    exact hgains.labels.trans (Nat.zero_add _)

/-- `int twice(int n) { if (n) { return n + n; } return 0; }` and
`int main() { int n = 0; while (n < 9) { n = n + twice(n + 1) + twice(twice(2)); } printi(n); return 0; }`. -/
theorem statistics_agree_twice :
    let n : Expr := .var "n" .int
    let number (value : Int) : Expr := .literal (.int value) .int
    let add (lhs rhs : Expr) : Expr := .binary (.arith .add) lhs rhs .int
    let call (arg : Expr) : Expr := .call "twice" [arg] .int
    let twice : Function := ⟨⟨.int, "twice", [⟨.int, "n"⟩]⟩, [.ifElse n [.ret (add n n)] [], .ret (number 0)]⟩
    let main : Function := ⟨⟨.int, "main", []⟩,
      [.init .int "n" (number 0),
        .loop (.binary (.compare .lt) n (number 9) .int)
          [.assign "n" (add (add n (call (add n (number 1)))) (call (call (number 2))))],
        .call "printi" [n]]⟩
    let program : Program := ⟨[], [twice, main]⟩
    ∃ parts code τ, program.compile.run (Session.start {}) = (.ok code, τ) ∧ code = Parts.code parts {} ∧
      τ.stats.functions = 2 ∧ τ.stats.calls = 4 ∧ τ.stats.labels = 6 ∧ 0 < τ.stats.saves ∧
      τ.stats.saves = Mark.saved (Mark.readAll (τ.render parts.functions.flatten)) := by
  intro n number add call twice main program
  obtain ⟨code, τ, hrun, htest⟩ := StepM.exists_of_any (program.compile.run (Session.start {}))
    (fun _ τ => τ.stats.functions == 2 && τ.stats.calls == 4 && τ.stats.labels == 6 && decide (0 < τ.stats.saves))
    (by decide +kernel)
  simp only [Bool.and_eq_true, beq_iff_eq, decide_eq_true_eq] at htest
  obtain ⟨⟨⟨hfunctions, hcalls⟩, hlabels⟩, hsaves⟩ := htest
  obtain ⟨parts, hcode, -, -, ⟨-, hsaved, -⟩, -⟩ := statistics_agree (by decide) hrun
  exact ⟨parts, code, τ, hrun, hcode, hfunctions, hcalls, hlabels, hsaves, hsaved⟩

end Program

end ArmBackend
