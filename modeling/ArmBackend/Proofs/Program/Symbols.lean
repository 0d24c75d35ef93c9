import ArmBackend.Proofs.Events
import ArmBackend.Proofs.Program.Lines
import ArmBackend.Proofs.Stmt.Ids
import Mathlib.Algebra.GroupWithZero.Nat

/-!
# Symbols and private labels

The private labels of a unit are those of its returns, branches and loops and those inside its helpers. How
they are written is known from the unit. Nothing keeps the symbols of functions apart from them but the symbol
prefix.
-/

namespace ArmBackend

open Code (Fills)
open Session (Draws)

variable {σ τ : Session} {code : Code} {label : Label} {options : Options}

/-! ## Functions -/

namespace Function

def branches (function : Function) : Nat := Stmt.blockBranches function.body

def loops (function : Function) : Nat := Stmt.blockLoops function.body

variable {function : Function}

theorem lowerBody_fills (h : function.lowerBody.run σ = (.ok code, τ)) :
    Fills function.branches function.loops σ τ code := by
  obtain ⟨paramCode, bodyCode, returnCode, σ₁, σ₂, hparams, hbody, hreturn, rfl⟩ := lowerBody_ok h
  have hparamCode : Fills 0 0 σ σ₁ paramCode := .of_still bindParams_still hparams
  have hreturnCode : Fills 0 0 σ₂ τ returnCode := .of_still implicitReturn_still hreturn
  have hall := (hparamCode.append (Stmt.lowerBlock_fills hbody)).append hreturnCode
  simp only [Nat.zero_add, Nat.add_zero] at hall
  exact hall

theorem compile_fills (h : function.compile.run σ = (.ok code, τ)) :
    Fills function.branches function.loops σ τ code := by
  obtain ⟨bodyCode, frame, layout, σ₁, frames, hbody, -, -, rfl, rfl⟩ := compile_ok h
  obtain ⟨hif, hloop, hcomplete⟩ := lowerBody_fills hbody
  refine ⟨hif, hloop, fun label hlabel => ?_⟩
  rw [Code.labels_append, Code.labels_append]
  exact List.mem_append_left _ (List.mem_append_right _ (hcomplete label hlabel))

theorem lowerBody_draws (function : Function) :
    Draws function.branches function.loops function.lowerBody :=
  .skip (.of_still bindParams_still) fun _ => .bind (Stmt.lowerBlock_draws _) fun _ =>
    .skip (.of_still implicitReturn_still) fun _ => .check _

theorem compile_draws (function : Function) : Draws function.branches function.loops function.compile :=
  .bind (.inFrame function.lowerBody_draws) fun _ => .skip (.of_eq (fun _ => rfl) fun _ => rfl) fun _ =>
    .skip (.of_eq (fun _ => rfl) fun _ => rfl) fun _ => .pure _

theorem mem_labels_iff (h : function.compile.run σ = (.ok code, τ)) :
    label ∈ code.labels ↔
      (label = σ.options.functionLabel function.name ∨ label = .returnOf function.name) ∨
        label.Between σ τ := by
  obtain ⟨bodyCode, hlabelled, hlabels⟩ := compile_labels h
  constructor
  · intro hmem
    rw [hlabels, List.mem_append, List.mem_cons, List.mem_singleton] at hmem
    rcases hmem with (hsymbol | hbody) | hreturn
    · exact Or.inl (Or.inl hsymbol)
    · exact Or.inr (hlabelled.between label hbody)
    · exact Or.inl (Or.inr hreturn)
  · rintro ((rfl | rfl) | hbetween)
    · rw [hlabels]
      exact List.mem_append_left _ List.mem_cons_self
    · rw [hlabels]
      exact List.mem_append_right _ (List.mem_singleton_self _)
    · exact (compile_fills h).complete label hbetween

end Function

/-! ## Units -/

theorem Session.declare_draws (signature : Signature) : Draws 0 0 (declare signature) := by
  refine .of_eq (fun σ => ?_) fun σ => ?_ <;>
    · rw [declare_run]
      split <;> rfl

theorem Session.define_draws (signature : Signature) : Draws 0 0 (define signature) := by
  refine .of_eq (fun σ => ?_) fun σ => ?_ <;>
    · rw [define_run]
      split
      case isTrue => rfl
      case isFalse => split <;> rfl

namespace Program

variable {functions : List Function} {program : Program}

theorem compileFunctions_fills (h : (compileFunctions functions).run σ = (.ok code, τ)) :
    Fills (functions.map Function.branches).sum (functions.map Function.loops).sum σ τ code := by
  induction functions generalizing σ code with
  | nil =>
    cases h
    exact .of_eq rfl rfl
  | cons function functions ih =>
    obtain ⟨functionCode, restCode, σ₁, hfunction, hrest, rfl⟩ := compileFunctions_cons_ok h
    exact (Function.compile_fills hfunction).append (ih hrest)

theorem mem_labels_iff (h : (compileFunctions functions).run σ = (.ok code, τ)) :
    label ∈ code.labels ↔
      (∃ name ∈ functions.map Function.name, label = σ.options.functionLabel name ∨ label = .returnOf name) ∨
        label.Between σ τ := by
  induction functions generalizing σ code with
  | nil =>
    cases h
    simp [Label.not_between rfl rfl]
  | cons function functions ih =>
    obtain ⟨functionCode, restCode, σ₁, hfunction, hrest, rfl⟩ := compileFunctions_cons_ok h
    have hfollows := Function.compile_follows hfunction
    have hcounts := (compileFunctions_follows hrest).toCounts
    have hsplit : label.Between σ τ ↔ label.Between σ σ₁ ∨ label.Between σ₁ τ :=
      ⟨fun hbetween => hbetween.split σ₁, fun hbetween =>
        hbetween.elim (·.mono (.refl σ) hcounts) (·.mono hfollows.toCounts (.refl τ))⟩
    rw [Code.labels_append, List.mem_append, Function.mem_labels_iff hfunction, ih hrest, hsplit,
      hfollows.options, List.map_cons, List.exists_mem_cons_iff]
    exact or_or_or_comm

/-! ## Private labels -/

def branchForms : List (Nat → Label) := [.ifTrue, .ifFalse, .ifExit]

def loopForms : List (Nat → Label) := [.loopCond, .loopBody, .loopExit]

/-- The labels of these forms with all the ids below a count. -/
def numbered (forms : List (Nat → Label)) (count : Nat) : List Label :=
  forms.flatMap fun form => (List.range count).map form

theorem between_iff (hif : σ.nextIf = 0) (hloop : σ.nextLoop = 0) :
    label.Between σ τ ↔ label ∈ numbered branchForms τ.nextIf ++ numbered loopForms τ.nextLoop := by
  cases label <;> simp [numbered, branchForms, loopForms, Label.Between, hif, hloop]

def branches (program : Program) : Nat := (program.functions.map Function.branches).sum

def loops (program : Program) : Nat := (program.functions.map Function.loops).sum

def helpers (program : Program) : List Builtin :=
  Builtin.all.filter fun builtin => builtin.name ∈ program.callees ∧ builtin.name ∉ program.names

def privateLabels (program : Program) : List Label :=
  program.names.map .returnOf ++ (numbered branchForms program.branches ++ numbered loopForms program.loops) ++
    program.helpers.flatMap fun builtin => builtin.body.labels

theorem compileFunctions_draws (functions : List Function) :
    Draws (functions.map Function.branches).sum (functions.map Function.loops).sum
      (compileFunctions functions) := by
  induction functions with
  | nil => exact .pure _
  | cons function functions ih => exact function.compile_draws.bind fun _ => ih.bind fun _ => .pure _

theorem compile_draws (program : Program) : Draws program.branches program.loops program.compile :=
  .skip (.forM Session.declare_draws) fun _ =>
    .skip (.forM fun function => Session.define_draws function.signature) fun _ =>
    .bind (compileFunctions_draws _) fun _ => .skip (.of_eq (fun _ => rfl) fun _ => rfl) fun _ => .pure _

/-- A unit with less than `2 ^ 32` branches and as many loops takes no id that 32 bits cannot count, whatever
the outcome. -/
theorem ids_lt (options : Options) (hif : program.branches < 2 ^ 32) (hloop : program.loops < 2 ^ 32) :
    (program.compile.run (Session.start options)).2.nextIf < 2 ^ 32 ∧
      (program.compile.run (Session.start options)).2.nextLoop < 2 ^ 32 := by
  obtain ⟨hifs, hloops⟩ := program.compile_draws
  have hifs := hifs (Session.start options)
  have hloops := hloops (Session.start options)
  simp only [Session.start, Nat.zero_add] at hifs hloops
  exact ⟨Nat.lt_of_le_of_lt hifs hif, Nat.lt_of_le_of_lt hloops hloop⟩

end Program

def Label.Internal : Label → Prop
  | .named _ | .datum .. => False
  | _ => True

theorem Label.Between.internal (h : label.Between σ τ) : label.Internal := by
  cases label with
  | named name => exact h
  | returnOf function => trivial
  | datum kind id => exact h
  | _ => trivial

namespace Program

namespace Parts

/-- Whether the text defines the label inside a function or a helper. -/
def Private (parts : Parts) (label : Label) : Prop :=
  label ∈ Code.labels parts.functions.flatten ∧ label.Internal ∨
    ∃ builtin ∈ parts.helpers, label ∈ builtin.body.labels

/-- No function's symbol is written as a private label of the text. -/
def Apart (parts : Parts) (options : Options) (names : List String) : Prop :=
  ∀ name ∈ names, ∀ label, parts.Private label → (options.functionLabel name).text ≠ label.text

end Parts

variable {program : Program} {parts : Parts} {text : String}

theorem mem_internal_iff
    (hrun : (compileFunctions program.functions).run (program.tables options) = (.ok code, τ)) :
    label ∈ code.labels ∧ label.Internal ↔
      label ∈ program.names.map .returnOf ∨
        label ∈ numbered branchForms program.branches ++ numbered loopForms program.loops := by
  have hfills := compileFunctions_fills hrun
  have hif : τ.nextIf = program.branches := hfills.nextIf.trans (Nat.zero_add _)
  have hloop : τ.nextLoop = program.loops := hfills.nextLoop.trans (Nat.zero_add _)
  rw [mem_labels_iff hrun, ← hif, ← hloop, ← between_iff (σ := program.tables options) rfl rfl, List.mem_map]
  constructor
  · rintro ⟨⟨name, hname, rfl | rfl⟩ | hbetween, hinternal⟩
    · exact hinternal.elim
    · exact Or.inl ⟨name, hname, rfl⟩
    · exact Or.inr hbetween
  · rintro (⟨name, hname, rfl⟩ | hbetween)
    · exact ⟨Or.inl ⟨name, hname, Or.inr rfl⟩, trivial⟩
    · exact ⟨Or.inr hbetween, hbetween.internal⟩

theorem private_iff (hrun : (compileFunctions program.functions).run (program.tables options) =
      (.ok parts.functions.flatten, τ)) (hhelpers : parts.helpers = τ.neededBuiltins) :
    parts.Private label ↔ label ∈ program.privateLabels := by
  have hhelper : ∀ builtin, builtin ∈ parts.helpers ↔ builtin ∈ program.helpers := fun builtin => by
    rw [hhelpers, mem_neededBuiltins hrun, helpers, List.mem_filter, decide_eq_true_iff]
    exact (and_iff_right builtin.mem_all).symm
  simp only [Parts.Private, mem_internal_iff hrun, privateLabels, hhelper, List.mem_append, List.mem_flatMap]

end Program

/-! ## How private labels are written -/

def Label.stem : Label → String
  | .named name => name
  | .returnOf _ => "return_"
  | .ifTrue _ => "IF_TRUE_"
  | .ifFalse _ => "IF_FALSE_"
  | .ifExit _ => "IF_EXIT_"
  | .loopCond _ => "WHILE_COND_"
  | .loopBody _ => "WHILE_BODY_"
  | .loopExit _ => "WHILE_EXIT_"
  | .datum .. => "static."

theorem Label.stem_prefix (label : Label) : label.stem.toList <+: label.text.toList := by
  cases label <;> simp [stem, text, toString]

namespace Program

variable {program : Program} {parts : Parts} {text : String}

def privateStems : List String :=
  ["return_", "IF_TRUE_", "IF_FALSE_", "IF_EXIT_", "WHILE_COND_", "WHILE_BODY_", "WHILE_EXIT_"] ++
    Builtin.all.flatMap fun builtin => builtin.body.labels.map Label.stem

theorem stem_mem (h : label ∈ program.privateLabels) : label.stem ∈ privateStems := by
  rw [privateLabels, List.mem_append, List.mem_append, List.mem_map, List.mem_flatMap] at h
  rcases h with (⟨name, -, rfl⟩ | hnumbered) | ⟨builtin, -, hmem⟩
  · exact List.mem_cons_self
  · simp only [numbered, branchForms, loopForms, List.flatMap_cons, List.flatMap_nil, List.append_nil,
      List.mem_append, List.mem_map] at hnumbered
    rcases hnumbered with (⟨_, -, rfl⟩ | ⟨_, -, rfl⟩ | ⟨_, -, rfl⟩) | ⟨_, -, rfl⟩ | ⟨_, -, rfl⟩ | ⟨_, -, rfl⟩ <;>
      simp [privateStems, Label.stem]
  · exact List.mem_append_right _ (List.mem_flatMap.mpr ⟨builtin, builtin.mem_all, List.mem_map_of_mem hmem⟩)

/-- Whether neither of the prefix and a stem begins with the other, whatever the stem is. -/
def Separates (symbolPrefix : String) : Prop :=
  ∀ stem ∈ privateStems, ¬ symbolPrefix.toList <+: stem.toList ∧ ¬ stem.toList <+: symbolPrefix.toList

instance (symbolPrefix : String) : Decidable (Separates symbolPrefix) :=
  inferInstanceAs (Decidable (∀ stem ∈ privateStems,
    ¬ symbolPrefix.toList <+: stem.toList ∧ ¬ stem.toList <+: symbolPrefix.toList))

theorem Separates.text_ne (h : Separates options.symbolPrefix) (hlabel : label ∈ program.privateLabels)
    (name : String) : (options.functionLabel name).text ≠ label.text := by
  intro heq
  have hsymbol : options.symbolPrefix.toList <+: label.text.toList := by
    rw [← heq]
    simp [Options.functionLabel, Label.text]
  obtain ⟨hshort, hlong⟩ := h label.stem (stem_mem hlabel)
  exact (List.prefix_or_prefix_of_prefix hsymbol label.stem_prefix).elim hshort hlong

/-- The unit alone tells which private labels its text has, and no symbol of a function is written as one of
them exactly if no prefixed name is. Nothing is checked when the unit is compiled, but a prefix that separates
is enough. -/
theorem assembly_apart_iff (h : program.assembly options = .ok text) :
    ∃ parts : Parts, text = (parts.code options).render options.indent ∧
      List.Forall₂ (Compiles options) program.functions parts.functions ∧
      (∀ label, parts.Private label ↔ label ∈ program.privateLabels) ∧
      (parts.Apart options program.names ↔
        ∀ name ∈ program.names, options.symbolPrefix ++ name ∉ program.privateLabels.map Label.text) ∧
      (Separates options.symbolPrefix → parts.Apart options program.names) := by
  obtain ⟨code, τ, hcompile, rfl⟩ := assembly_ok h
  obtain ⟨parts, rfl, hhelpers, -, hrun, hfunctions, -⟩ := compile_parts hcompile
  have hprivate : ∀ label, parts.Private label ↔ label ∈ program.privateLabels := fun label =>
    private_iff hrun hhelpers
  refine ⟨parts, rfl, hfunctions, hprivate, ⟨fun hapart name hname hmem => ?_, ?_⟩, ?_⟩
  · obtain ⟨label, hlabel, htext⟩ := List.mem_map.mp hmem
    exact hapart name hname label ((hprivate label).mpr hlabel) htext.symm
  · intro hnone name hname label hlabel htext
    exact hnone name hname (List.mem_map.mpr ⟨label, (hprivate label).mp hlabel, htext.symm⟩)
  · exact fun hseparates name _ label hlabel => hseparates.text_ne ((hprivate label).mp hlabel) name

/-- `int return_f(int n) { while (n) { if (n) { n = 0; } } return n; }` and `int f() { printi(3); return 0; }`
under the usual prefix. -/
theorem assembly_apart_iff_underscore :
    let n : Expr := .var "n" .int
    let looping : Function := ⟨⟨.int, "return_f", [⟨.int, "n"⟩]⟩,
      [.loop n [.ifElse n [.assign "n" (.literal (.int 0) .int)] []], .ret n]⟩
    let printing : Function := ⟨⟨.int, "f", []⟩,
      [.call "printi" [.literal (.int 3) .int], .ret (.literal (.int 0) .int)]⟩
    let program : Program := ⟨[], [looping, printing]⟩
    ∃ text, program.assembly {} = .ok text ∧ ∃ parts : Parts,
      text = (parts.code {}).render 8 ∧ parts.Apart {} ["return_f", "f"] ∧
      ∀ label ∈ [.returnOf "f", .loopCond 0, .ifTrue 0, Builtin.digitLabel], parts.Private label := by
  intro n looping printing program
  have hcompiles : (program.assembly {}).toOption.isSome = true := by decide +kernel
  rcases htext : program.assembly {} with e | text
  · rw [htext] at hcompiles
    cases hcompiles
  · obtain ⟨parts, hparts, -, hprivate, -, hseparates⟩ := assembly_apart_iff htext
    refine ⟨text, rfl, parts, hparts, hseparates (by decide), fun label hlabel => (hprivate label).mpr ?_⟩
    exact (by decide +kernel : ∀ label ∈ [.returnOf "f", .loopCond 0, .ifTrue 0, Builtin.digitLabel],
      label ∈ program.privateLabels) label hlabel

/-- `void f() {}` and `void return_f() {}` without a prefix: where `f` returns is written as the symbol of the
other function. -/
theorem assembly_not_apart :
    let f : Function := ⟨⟨.void, "f", []⟩, []⟩
    let other : Function := ⟨⟨.void, "return_f", []⟩, []⟩
    let program : Program := ⟨[], [f, other]⟩
    let options : Options := { symbolPrefix := "" }
    program.names.Nodup ∧ program.Identified ∧
      (options.functionLabel other.name).text = (Label.returnOf f.name).text ∧
      ((program.assembly options).toOption.map fun text => (Listing.labelLines text).count "return_f:") =
        some 2 := by
  decide +kernel

end Program

end ArmBackend
