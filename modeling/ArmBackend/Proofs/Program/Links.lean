import ArmBackend.Proofs.Function.Links
import ArmBackend.Proofs.Program.Sections

/-!
# References of a unit

Every label that an instruction of a unit names is defined on one line, unless it is the symbol of a
function that is only declared.
-/

namespace ArmBackend

open Session (Links newest?)
open Code (Closed)

namespace Program

variable {σ τ : Session} {code : Code} {functions : List Function} {options : Options} {program : Program}

/-! ## Callees -/

def callees (program : Program) : List String := program.functions.flatMap Function.callees

theorem compileFunctions_links (h : (compileFunctions functions).run σ = (.ok code, τ)) :
    Links (functions.flatMap Function.callees) code.references σ τ := by
  induction functions generalizing σ code with
  | nil =>
    cases h
    exact .refl _
  | cons function functions ih =>
    obtain ⟨functionCode, restCode, σ₁, hfunction, hrest, rfl⟩ := compileFunctions_cons_ok h
    rw [Code.references_append]
    exact (Function.compile_links hfunction).trans (ih hrest)

theorem isDefined_tables (name : String) :
    (program.tables options).isDefined name = false ↔ name ∉ program.names := by
  rw [← Bool.not_eq_true, Session.isDefined, Session.newest?_isSome]
  simp [tables, names, Function.name]

theorem mem_neededBuiltins (h : (compileFunctions program.functions).run (program.tables options) = (.ok code, τ))
    (builtin : Builtin) :
    builtin ∈ τ.neededBuiltins ↔ builtin.name ∈ program.callees ∧ builtin.name ∉ program.names := by
  rw [Session.mem_neededBuiltins, (compileFunctions_links h).used, isDefined_tables]
  exact or_iff_right List.not_mem_nil

theorem known_of_mem_callees
    (h : (compileFunctions program.functions).run (program.tables options) = (.ok code, τ)) {name : String}
    (hname : name ∈ program.callees) :
    name ∈ program.declarations.map Signature.name ∨ (∃ builtin : Builtin, builtin.name = name) ∨
      name ∈ program.names := by
  have hknown := (compileFunctions_links h).known name hname
  rw [Option.isSome_or, Bool.or_eq_true, Session.newest?_isSome, Session.newest?_isSome] at hknown
  simp only [tables, List.mem_append, List.mem_reverse, List.mem_map] at hknown
  rcases hknown with ⟨signature, hdeclared | ⟨builtin, -, rfl⟩, rfl⟩ | ⟨signature, ⟨function, hmem, rfl⟩, rfl⟩
  · exact Or.inl (List.mem_map_of_mem hdeclared)
  · exact Or.inr (Or.inl ⟨builtin, by cases builtin; rfl⟩)
  · exact Or.inr (Or.inr (List.mem_map_of_mem hmem))

/-! ## Resolution -/

/-- What a call of `name` leads to: a function of the unit, a helper, or nothing if the function is only
declared. -/
inductive Found (program : Program) (options : Options) (parts : Parts) (name : String) : Prop
  | function (hdefined : name ∈ program.names)
      (hone : (parts.code options).definitions (options.functionLabel name) = 1)
  | helper (builtin : Builtin) (hname : builtin.name = name) (honce : parts.helpers.count builtin = 1)
      (hone : (parts.code options).definitions (options.functionLabel name) = 1)
  | declared (hdeclared : name ∈ program.declarations.map Signature.name) (hdefined : name ∉ program.names)
      (hnone : (parts.code options).definitions (options.functionLabel name) = 0)

/-- Whether every label that the instructions of a unit name leads somewhere. -/
structure Resolves (program : Program) (options : Options) (parts : Parts) : Prop where
  /-- The functions stand in the order of the unit. -/
  functions : List.Forall₂ (Compiles options) program.functions parts.functions
  /-- No two labels are written the same. -/
  distinct : ((parts.code options).labels.map Label.text).Nodup
  /-- A branch stays in its function or helper. -/
  branches : ∀ code ∈ parts.sections options, ∀ label, .branch label ∈ code.references →
    code.definitions label = 1 ∧ (parts.code options).definitions label = 1
  /-- The code calls what the functions of the unit call. -/
  calls : ∀ label, .call label ∈ (parts.code options).references ↔
    ∃ name ∈ program.callees, label = options.functionLabel name
  found : ∀ name ∈ program.callees, program.Found options parts name
  /-- A helper is there if the unit calls it and does not define it. -/
  helpers : ∀ builtin, builtin ∈ parts.helpers ↔
    builtin.name ∈ program.callees ∧ builtin.name ∉ program.names
  /-- An address in the data section is that of a text. -/
  data : ∀ label, .datum label ∈ (parts.code options).references →
    parts.data.code.definitions label = 1 ∧ (parts.code options).definitions label = 1

theorem Compiles.closed {function : Function} (h : Compiles options function code) :
    Closed (fun _ => False) code := by
  obtain ⟨σ, τ, -, hrun⟩ := h
  exact Function.compile_closed hrun

theorem Compiles.symbol {function : Function} (h : Compiles options function code) :
    options.functionLabel function.name ∈ code.labels := by
  obtain ⟨σ, τ, rfl, hrun⟩ := h
  obtain ⟨bodyCode, -, hlabels⟩ := Function.compile_labels hrun
  rw [hlabels]
  exact List.mem_append_left _ List.mem_cons_self

section Resolution

variable {parts : Parts}

theorem section_sublist (hmem : code ∈ parts.sections options) : code.Sublist (parts.code options) :=
  ((List.sublist_flatten_of_mem hmem).trans (List.sublist_cons_self _ _)).trans
    (List.sublist_append_left _ _)

theorem definitions_of_sublist (hdistinct : ((parts.code options).labels.map Label.text).Nodup)
    (hsublist : code.Sublist (parts.code options)) {label : Label} (hmem : label ∈ code.labels) :
    code.definitions label = 1 ∧ (parts.code options).definitions label = 1 := by
  have hlabels : code.labels.Sublist (parts.code options).labels := hsublist.filterMap _
  exact ⟨Code.definitions_of_mem (hdistinct.sublist (hlabels.map _)) hmem,
    Code.definitions_of_mem hdistinct (hlabels.subset hmem)⟩

theorem section_closed (hfunctions : List.Forall₂ (Compiles options) functions parts.functions)
    (hmem : code ∈ parts.sections options) : Closed (fun _ => False) code := by
  rcases List.mem_append.mp hmem with hmem | hmem
  · obtain ⟨function, -, hcompiles⟩ := exists_function hfunctions hmem
    exact hcompiles.closed
  · obtain ⟨builtin, -, rfl⟩ := List.mem_map.mp hmem
    intro label hmem
    obtain ⟨other, hother, heq⟩ := builtin.mem_references_code hmem
    cases heq
    exact Or.inl hother

theorem mem_references_code {reference : Reference} (hbranch : ∀ label, reference ≠ .branch label) :
    reference ∈ (parts.code options).references ↔
      reference ∈ Code.references parts.functions.flatten := by
  simp only [Parts.code, Parts.sections, List.cons_append, Code.references_directive, Code.references_append,
    List.flatten_append, StaticData.references_code, List.append_nil, List.mem_append]
  refine or_iff_left fun hmem => ?_
  rw [Code.references_flatten, List.mem_flatMap] at hmem
  obtain ⟨code, hcode, hmem⟩ := hmem
  obtain ⟨builtin, -, rfl⟩ := List.mem_map.mp hcode
  obtain ⟨label, -, heq⟩ := builtin.mem_references_code hmem
  exact hbranch label heq

theorem exists_symbol (hfunctions : List.Forall₂ (Compiles options) program.functions parts.functions)
    {name : String} (hname : name ∈ program.names) :
    ∃ code ∈ parts.functions, options.functionLabel name ∈ code.labels := by
  obtain ⟨function, hmem, rfl⟩ := List.mem_map.mp hname
  obtain ⟨i, hi, rfl⟩ := List.getElem_of_mem hmem
  have hi' := hfunctions.length_eq ▸ hi
  exact ⟨parts.functions[i], List.getElem_mem hi', (hfunctions.get hi hi').symbol⟩

theorem symbol_mem (hfunctions : List.Forall₂ (Compiles options) program.functions parts.functions)
    {name : String} (hname : name ∈ program.names) :
    options.functionLabel name ∈ (parts.code options).labels := by
  obtain ⟨code, hcode, hsymbol⟩ := exists_symbol hfunctions hname
  have hsection : code ∈ parts.sections options := List.mem_append_left _ hcode
  exact ((section_sublist hsection).filterMap _).subset hsymbol

theorem helper_symbol_mem {builtin : Builtin} (hmem : builtin ∈ parts.helpers) :
    options.functionLabel builtin.name ∈ (parts.code options).labels := by
  have hsection : builtin.code options ∈ parts.sections options :=
    List.mem_append_right _ (List.mem_map_of_mem hmem)
  exact ((section_sublist hsection).filterMap _).subset (builtin.symbol_mem_code options)

theorem definitions_of_not_mem {names : List String} (hunderscore : options.symbolPrefix = "_")
    (hof : ∀ label ∈ Code.labels parts.functions.flatten, OfFunctions names σ τ label) {name : String}
    (hname : name ∉ names) (hhelper : ∀ builtin ∈ parts.helpers, builtin.name ≠ name) :
    (parts.code options).definitions (options.functionLabel name) = 0 := by
  have hplaced := Label.placed_functionLabel hunderscore name
  rw [Code.definitions_eq, List.count_eq_zero, List.mem_map]
  rintro ⟨label, hmem, htext⟩
  obtain rfl := Label.text_inj (placed_of_mem hunderscore hof label hmem) hplaced htext
  rw [Parts.labels_code, List.mem_append, List.mem_append, List.mem_flatMap, StaticData.labels_code,
    List.mem_map] at hmem
  rcases hmem with (hmem | ⟨builtin, hbuiltin, hmem⟩) | ⟨id, -, heq⟩
  · have hfunction := hof _ hmem
    rw [functionLabel_eq hunderscore] at hfunction
    rcases hfunction with ⟨other, hother, heq | heq⟩ | hbetween
    · exact hname (functionLabel_inj heq ▸ hother)
    · cases heq
    · exact hbetween
  · exact hhelper builtin hbuiltin (builtin.name_of_mem hunderscore hmem)
  · cases heq

end Resolution

/-- The unit that the compiler makes of a program resolves. -/
theorem resolves_of_compile (hunderscore : options.symbolPrefix = "_")
    (h : program.compile.run (Session.start options) = (.ok code, τ)) :
    ∃ parts, code = parts.code options ∧ program.Resolves options parts := by
  obtain ⟨parts, rfl, hhelpers, hdata, hrun, hfunctions, hnames⟩ := compile_parts h
  have hlinks := compileFunctions_links hrun
  have hneeded : ∀ builtin, builtin ∈ parts.helpers ↔
      builtin.name ∈ program.callees ∧ builtin.name ∉ program.names := hhelpers ▸ mem_neededBuiltins hrun
  have honce : parts.helpers.Nodup := hhelpers ▸ nodup_neededBuiltins τ
  obtain ⟨hof, hnodup⟩ := compileFunctions_labels hunderscore hnames hrun
  have hdistinct := nodup_labels_code hunderscore hof hnodup honce fun builtin hbuiltin =>
    ((hneeded builtin).mp hbuiltin).2
  refine ⟨parts, rfl, {
    functions := hfunctions
    distinct := hdistinct
    branches := fun code hcode label hbranch => ?_
    calls := fun label => ?_
    found := fun name hname => ?_
    helpers := hneeded
    data := fun label hdatum => ?_ }⟩
  · exact definitions_of_sublist hdistinct (section_sublist hcode)
      ((section_closed hfunctions hcode label hbranch).resolve_right id)
  · rw [mem_references_code fun _ => by simp]
    exact hlinks.calls label
  · by_cases hdefined : name ∈ program.names
    · exact .function hdefined (Code.definitions_of_mem hdistinct (symbol_mem hfunctions hdefined))
    by_cases hbuiltin : ∃ builtin : Builtin, builtin.name = name
    · obtain ⟨builtin, rfl⟩ := hbuiltin
      have hhelper := (hneeded builtin).mpr ⟨hname, hdefined⟩
      exact .helper builtin rfl (List.count_eq_one_of_mem honce hhelper)
        (Code.definitions_of_mem hdistinct (helper_symbol_mem hhelper))
    · have hdeclared := (known_of_mem_callees hrun hname).resolve_right (not_or.mpr ⟨hbuiltin, hdefined⟩)
      exact .declared hdeclared hdefined (definitions_of_not_mem hunderscore hof hdefined
        fun builtin _ heq => hbuiltin ⟨builtin, heq⟩)
  · rw [mem_references_code fun _ => by simp] at hdatum
    obtain ⟨id, hid, rfl⟩ := hlinks.data label hdatum
    refine definitions_of_sublist hdistinct (List.sublist_append_right _ _) ?_
    rw [StaticData.labels_code, hdata]
    exact List.mem_map_of_mem (List.mem_range.mpr hid)

end Program

end ArmBackend
