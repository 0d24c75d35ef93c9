import ArmBackend.Proofs.Function.Woven
import ArmBackend.Proofs.Machine.Lines
import ArmBackend.Proofs.Program.Links

/-!
# Lines of a unit

The functions of a unit have identifiers for names, so each line of its text is one line of its code.
-/

namespace ArmBackend

/-! ## Directives -/

namespace Code

def Bare (code : Code) : Prop := ∀ directive, .directive directive ∉ code

namespace Bare

variable {a b code : Code}

theorem append (ha : Bare a) (hb : Bare b) : Bare (a ++ b) := fun directive hmem =>
  (List.mem_append.mp hmem).elim (ha directive) (hb directive)

theorem ofInstrs (instrs : List Instr) : Bare (ofInstrs instrs) := by
  simp [Bare, Code.ofInstrs]

theorem frameAddress (dst : Register) (offset : Int) : Bare (frameAddress dst offset) := by
  simp only [Code.frameAddress]
  split
  · exact ofInstrs _
  · exact append (ofInstrs _) (ofInstrs _)

theorem storeSlot (src : Register) (offset : Int) (ty : Ty) : Bare (storeSlot src offset ty) := by
  simp only [Code.storeSlot, slotAddress]
  split
  · exact ofInstrs _
  · exact append (frameAddress _ _) (ofInstrs _)

theorem adjustStack (change : StackChange) (size : Nat) : Bare (adjustStack change size) := by
  simp only [Code.adjustStack]
  split
  · cases change <;> exact ofInstrs _
  · split
    · cases change <;> exact ofInstrs _
    · cases change <;> exact append (ofInstrs _) (ofInstrs _)

theorem of_straight {calls : Prop} {writes : Int → Ty → Prop} (h : Straight calls writes code) :
    Bare code := by
  induction h with
  | nil => exact fun _ => List.not_mem_nil
  | quiet h => exact ofInstrs _
  | store src h => exact storeSlot _ _ _
  | call label hcalls hlive => exact append (append (ofInstrs _) (ofInstrs _)) (ofInstrs _)
  | trap imm => exact ofInstrs _
  | append _ _ iha ihb => exact append iha ihb

theorem of_woven {calls : Prop} {writes : Int → Ty → Prop} (h : Woven calls writes code) : Bare code := by
  induction h with
  | nil => exact fun _ => List.not_mem_nil
  | straight ha _ ih => exact append (of_straight ha) ih
  | through ty _ ih => exact append (ofInstrs _) ih
  | label label _ ih => simpa [Bare] using ih
  | branch hlabel _ ih => simpa [Bare] using ih
  | branchIf cond hlabel _ ih => simpa [Bare] using ih

end Bare

end Code

namespace FrameLayout

variable (layout : FrameLayout)

theorem bare_prologue : layout.prologue.Bare := by
  rw [prologue]
  refine .append ?_ ?_
  · split
    · exact .ofInstrs _
    · exact .ofInstrs []
  · split
    · exact .adjustStack _ _
    · exact .ofInstrs []

theorem bare_epilogue : layout.epilogue.Bare := by
  rw [epilogue]
  refine .append (.append ?_ ?_) (.ofInstrs _)
  · split
    · exact .adjustStack _ _
    · exact .ofInstrs []
  · split
    · exact .ofInstrs _
    · exact .ofInstrs []

end FrameLayout

theorem Options.global_of_mem {options : Options} {name : String} {label : Label}
    (h : .directive (.global label) ∈ options.functionHeader name) : label = options.functionLabel name := by
  simp only [functionHeader] at h
  split at h
  · simpa using h
  · simp at h

theorem Builtin.global_of_mem {options : Options} {builtin : Builtin} {label : Label}
    (h : .directive (.global label) ∈ builtin.code options) :
    label = options.functionLabel builtin.name := by
  have hbare : builtin.body.Bare := by
    cases builtin
    simp [Code.Bare, body, printIntBody, Code.ofInstrs]
  exact Options.global_of_mem ((List.mem_append.mp h).resolve_right (hbare _))

theorem StaticData.global_not_mem (table : StaticData) (label : Label) :
    .directive (.global label) ∉ table.code := by
  simp [code, Datum.code, DatumKind.alignment]

theorem Program.Compiles.global_of_mem {function : Function} {options : Options} {code : Code} {label : Label}
    (h : Compiles options function code) (hmem : .directive (.global label) ∈ code) :
    label = options.functionLabel function.name := by
  obtain ⟨σ, τ, rfl, hrun⟩ := h
  obtain ⟨bodyCode, frame, layout, σ₁, frames, hbody, hg, -, -, rfl⟩ := Function.compile_ok hrun
  have hoptions : σ₁.options = σ.options := (Function.lowerBody_peaks hbody).options
  obtain ⟨frame', hg', -⟩ := (Function.lowerBody_peaks hbody).frames rfl
  cases hg.symm.trans hg'
  have hbare := Code.Bare.of_woven (Function.lowerBody_woven hbody rfl hg')
  simp only [List.mem_append, List.mem_cons, layout.bare_prologue _, layout.bare_epilogue _, hbare _, or_false,
    reduceCtorEq] at hmem
  exact hoptions ▸ Options.global_of_mem hmem

/-! ## Names -/

def Identifier (name : String) : Prop := ∀ c ∈ name.toList, c.isAlphanum = true ∨ c = '_'

instance (name : String) : Decidable (Identifier name) :=
  List.decidableBAll (fun c : Char => c.isAlphanum = true ∨ c = '_') name.toList

theorem Identifier.legible {name : String} (h : Identifier name) : Legible name := by
  intro c hc
  have hword := h c hc
  refine ⟨?_, ?_, ?_⟩ <;>
  · rintro rfl
    exact absurd hword (by decide)

namespace Program

variable {program : Program} {options : Options} {parts : Parts}

/-- Whether the functions that a unit declares or defines have identifiers for names. -/
def Identified (program : Program) : Prop :=
  (∀ name ∈ program.names, Identifier name) ∧ ∀ signature ∈ program.declarations, Identifier signature.name

instance (program : Program) : Decidable program.Identified :=
  inferInstanceAs (Decidable ((∀ name ∈ program.names, Identifier name) ∧
    ∀ signature ∈ program.declarations, Identifier signature.name))

theorem legible_functionLabel (hunderscore : options.symbolPrefix = "_") {name : String} (h : Legible name) :
    Legible (options.functionLabel name).text := by
  rw [Options.functionLabel, hunderscore]
  exact Legible.append.mpr ⟨by decide, h⟩

theorem legible_of_between {σ τ : Session} {label : Label} (h : label.Between σ τ) : Legible label.text := by
  cases label with
  | named | returnOf | datum => exact h.elim
  | _ => simp +decide [Label.text, toString]

theorem Compiles.written_of_label {function : Function} {code : Code} (h : Compiles options function code)
    (hunderscore : options.symbolPrefix = "_") (hname : Legible function.name) {label : Label}
    (hmem : label ∈ code.labels) : Legible label.text ∧ label.Placed := by
  obtain ⟨σ, τ, rfl, hrun⟩ := h
  obtain ⟨bodyCode, hlabelled, hlabels⟩ := Function.compile_labels hrun
  simp only [hlabels, List.mem_append, List.mem_cons, List.not_mem_nil, or_false] at hmem
  rcases hmem with (rfl | hmem) | rfl
  · exact ⟨legible_functionLabel hunderscore hname, Label.placed_functionLabel hunderscore function.name⟩
  · exact ⟨legible_of_between (hlabelled.between label hmem), (hlabelled.between label hmem).placed⟩
  · exact ⟨Legible.append.mpr ⟨by decide, hname⟩, trivial⟩

theorem Compiles.proper {function : Function} {code : Code} (h : Compiles options function code)
    (hunderscore : options.symbolPrefix = "_") (hname : Legible function.name)
    (hcallees : ∀ name ∈ function.callees, Legible name) : ∀ line ∈ code, line.Proper := by
  have hlabels : ∀ label ∈ code.labels, Legible label.text := fun label hmem =>
    (h.written_of_label hunderscore hname hmem).1
  refine Code.proper_of_legible hlabels (fun reference hmem => ?_) fun label hmem => ?_
  · obtain ⟨σ, τ, rfl, hrun⟩ := h
    have hlinks := Function.compile_links hrun
    cases reference with
    | branch label =>
      rcases Function.compile_closed hrun label hmem with hlabel | hexit
      · exact hlabels label hlabel
      · exact hexit.elim
    | call label =>
      obtain ⟨name, hname, rfl⟩ := (hlinks.calls label).mp hmem
      exact legible_functionLabel hunderscore (hcallees name hname)
    | datum label =>
      obtain ⟨id, -, rfl⟩ := hlinks.data label hmem
      simp +decide [Reference.label, Label.text, toString, DatumKind.text]
  · rw [h.global_of_mem hmem]
    exact legible_functionLabel hunderscore hname

theorem legible_helperName (builtin : Builtin) : Legible builtin.name := by
  cases builtin
  decide

theorem legible_of_helper (hunderscore : options.symbolPrefix = "_") {builtin : Builtin} {label : Label}
    (hmem : label ∈ (builtin.code options).labels) : Legible label.text := by
  rw [Builtin.labels_code, List.mem_cons] at hmem
  rcases hmem with rfl | hmem
  · exact legible_functionLabel hunderscore (legible_helperName builtin)
  · cases builtin
    exact (by decide : ∀ label ∈ Builtin.printInt.body.labels, Legible label.text) label hmem

namespace Resolves

variable (h : program.Resolves options parts) (hunderscore : options.symbolPrefix = "_")
  (hnames : program.Identified)
include h hunderscore hnames

theorem legible_of_label {label : Label} (hmem : label ∈ (parts.code options).labels) :
    Legible label.text := by
  rw [Parts.labels_code, List.mem_append, List.mem_append, Code.labels_flatten, List.mem_flatMap,
    List.mem_flatMap, StaticData.labels_code, List.mem_map] at hmem
  rcases hmem with (⟨code, hcode, hmem⟩ | ⟨builtin, -, hmem⟩) | ⟨id, -, rfl⟩
  · obtain ⟨function, hfunction, hcompiles⟩ := exists_function h.functions hcode
    have hname := (hnames.1 _ (List.mem_map_of_mem hfunction)).legible
    exact (hcompiles.written_of_label hunderscore hname hmem).1
  · exact legible_of_helper hunderscore hmem
  · simp +decide [Label.text, toString, DatumKind.text]

theorem legible_of_definitions {label : Label} (hone : (parts.code options).definitions label = 1) :
    Legible label.text := by
  have hmem : label.text ∈ (parts.code options).labels.map Label.text := by
    rw [← List.count_pos_iff, ← Code.definitions_eq, hone]
    exact Nat.one_pos
  obtain ⟨other, hother, htext⟩ := List.mem_map.mp hmem
  rw [← htext]
  exact h.legible_of_label hunderscore hnames hother

theorem legible_of_reference {reference : Reference} (hmem : reference ∈ (parts.code options).references) :
    Legible reference.label.text := by
  cases reference with
  | branch label =>
    have hsection : ∃ code ∈ parts.sections options, .branch label ∈ code.references := by
      simpa [Parts.code] using hmem
    obtain ⟨code, hcode, hbranch⟩ := hsection
    exact h.legible_of_definitions hunderscore hnames (h.branches code hcode label hbranch).2
  | call label =>
    obtain ⟨name, hname, rfl⟩ := (h.calls label).mp hmem
    cases h.found name hname with
    | function _ hone => exact h.legible_of_definitions hunderscore hnames hone
    | helper _ _ _ hone => exact h.legible_of_definitions hunderscore hnames hone
    | declared hdeclared _ _ =>
      obtain ⟨signature, hsignature, rfl⟩ := List.mem_map.mp hdeclared
      exact legible_functionLabel hunderscore (hnames.2 signature hsignature).legible
  | datum label => exact h.legible_of_definitions hunderscore hnames (h.data label hmem).2

theorem legible_of_global {label : Label} (hmem : .directive (.global label) ∈ parts.code options) :
    Legible label.text := by
  have hsection : ∃ code ∈ parts.sections options, .directive (.global label) ∈ code := by
    simpa [Parts.code, parts.data.global_not_mem] using hmem
  obtain ⟨code, hcode, hglobal⟩ := hsection
  rcases List.mem_append.mp hcode with hcode | hcode
  · obtain ⟨function, hfunction, hcompiles⟩ := exists_function h.functions hcode
    rw [hcompiles.global_of_mem hglobal]
    exact legible_functionLabel hunderscore (hnames.1 _ (List.mem_map_of_mem hfunction)).legible
  · obtain ⟨builtin, -, rfl⟩ := List.mem_map.mp hcode
    rw [Builtin.global_of_mem hglobal]
    exact legible_functionLabel hunderscore (legible_helperName builtin)

/-- Every line of a unit is one line of its text. -/
theorem proper : ∀ line ∈ parts.code options, line.Proper :=
  Code.proper_of_legible (fun _ => h.legible_of_label hunderscore hnames)
    (fun _ => h.legible_of_reference hunderscore hnames) fun _ => h.legible_of_global hunderscore hnames

end Resolves

/-! ## The text -/

theorem assembly_ok {text : String} (h : program.assembly options = .ok text) :
    ∃ code τ, program.compile.run (Session.start options) = (.ok code, τ) ∧
      text = code.render options.indent := by
  rw [assembly] at h
  rcases hrun : program.compile.run (Session.start options) with ⟨e | code, τ⟩ <;> rw [hrun] at h <;> cases h
  obtain ⟨functionsCode, hfunctions, -, -⟩ := compile_ok hrun
  have hoptions : τ.options = options := (compileFunctions_follows hfunctions).options
  exact ⟨code, τ, rfl, by rw [Session.render, hoptions]⟩

/-- Every label that the text of a unit names is defined on one line, unless it is the symbol of a function
that is only declared. No two lines define labels that are written the same. -/
theorem assembly_resolves (hunderscore : options.symbolPrefix = "_") (hnames : program.Identified)
    {text : String} (h : program.assembly options = .ok text) :
    (Listing.labelLines text).Nodup ∧ ∃ parts : Parts,
      text = (parts.code options).render options.indent ∧
      Listing.labelLines text = (parts.code options).labels.map (fun label => label.text ++ ":") ∧
      program.Resolves options parts := by
  obtain ⟨code, τ, hrun, rfl⟩ := assembly_ok h
  obtain ⟨parts, rfl, hresolves⟩ := resolves_of_compile hunderscore hrun
  have hlines : Listing.labelLines ((parts.code options).render options.indent) =
      (parts.code options).labels.map fun label => label.text ++ ":" :=
    Listing.labelLines_render (hresolves.proper hunderscore hnames)
  refine ⟨?_, parts, rfl, hlines, hresolves⟩
  have hcolon : Function.Injective fun text : String => text ++ ":" := fun a b hab =>
    (String.append_left_inj _).mp hab
  have hnodup := hresolves.distinct.map hcolon
  rw [List.map_map] at hnodup
  rw [hlines]
  exact hnodup

/-- `int count(int n) { while (n) { if (n < 3) { break; } n = n - 1; } return n; }` and
`int main() { print("n"); printi(count(9)); return 0; }`, where `print` is declared only. -/
theorem assembly_resolves_count :
    let n : Expr := .var "n" .int
    let count : Function := ⟨⟨.int, "count", [⟨.int, "n"⟩]⟩,
      [.loop n [.ifElse (.binary (.compare .lt) n (.literal (.int 3) .int) .int) [.breakLoop] [],
        .assign "n" (.binary (.arith .sub) n (.literal (.int 1) .int) .int)], .ret n]⟩
    let main : Function := ⟨⟨.int, "main", []⟩,
      [.call "print" [.str "n" (.ptr .char)], .call "printi" [.call "count" [.literal (.int 9) .int] .int]]⟩
    let program : Program := ⟨[⟨.void, "print", [⟨.ptr .char, "text"⟩]⟩], [count, main]⟩
    ∃ text, program.assembly {} = .ok text ∧ (Listing.labelLines text).Nodup ∧ ∃ parts : Parts,
      text = (parts.code {}).render 8 ∧ program.Resolves {} parts ∧ .printInt ∈ parts.helpers := by
  intro n count main program
  have hcompiles : (program.assembly {}).toOption.isSome = true := by decide +kernel
  rcases htext : program.assembly {} with e | text
  · rw [htext] at hcompiles
    cases hcompiles
  · obtain ⟨hnodup, parts, hparts, -, hresolves⟩ := assembly_resolves rfl (by decide) htext
    exact ⟨text, rfl, hnodup, parts, hparts, hresolves, (hresolves.helpers _).mpr (by decide)⟩

end Program

end ArmBackend
