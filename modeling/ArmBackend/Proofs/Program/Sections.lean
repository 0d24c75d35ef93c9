import ArmBackend.Proofs.Machine.References
import ArmBackend.Proofs.Program.Progress

/-!
# Sections of a unit

The text of a unit is made of its functions, the helpers that it needs, and its data. No two of its labels
are written the same.
-/

namespace ArmBackend

/-! ## Definitions -/

/-- The number of lines that define a label that is written like this one. -/
def Code.definitions (code : Code) (label : Label) : Nat := code.countP (Line.defines label)

theorem Code.definitions_eq (code : Code) (label : Label) :
    code.definitions label = (code.labels.map Label.text).count label.text := by
  induction code with
  | nil => rfl
  | cons line code ih =>
    cases line with
    | label other => simp [definitions, Line.defines, List.countP_cons, List.count_cons, ← ih]
    | instr | directive => simpa [definitions, Line.defines] using ih

theorem Code.definitions_of_mem {code : Code} {label : Label} (hnodup : (code.labels.map Label.text).Nodup)
    (h : label ∈ code.labels) : code.definitions label = 1 := by
  rw [definitions_eq]
  exact List.count_eq_one_of_mem hnodup (List.mem_map_of_mem h)

/-! ## Labels of helpers and data -/

theorem Code.labels_flatten (codes : List Code) : labels codes.flatten = codes.flatMap labels := by
  induction codes with
  | nil => rfl
  | cons code codes ih => simp [ih]

namespace Builtin

variable (builtin : Builtin)

theorem labels_code (options : Options) :
    (builtin.code options).labels = options.functionLabel builtin.name :: builtin.body.labels := by
  simp [code, Options.labels_functionHeader]

theorem symbol_mem_code (options : Options) :
    options.functionLabel builtin.name ∈ (builtin.code options).labels := by
  rw [labels_code]
  exact List.mem_cons_self

theorem nodup_labels_body : builtin.body.labels.Nodup := by
  cases builtin
  decide

theorem head_of_mem_labels_body {label : Label} (h : label ∈ builtin.body.labels) :
    ∃ name, label = .named name ∧ name.toList.head? = some 'L' := by
  cases builtin
  have hmem : label ∈ [digitLabel, writeLabel] := h
  rcases List.mem_cons.mp hmem with rfl | hmem
  · exact ⟨_, rfl, rfl⟩
  · exact ⟨_, List.mem_singleton.mp hmem, rfl⟩

theorem exists_named_of_mem {options : Options} {label : Label} (h : label ∈ (builtin.code options).labels) :
    ∃ name, label = .named name := by
  rw [labels_code] at h
  rcases List.mem_cons.mp h with rfl | h
  · exact ⟨_, rfl⟩
  · exact (builtin.head_of_mem_labels_body h).imp fun _ => And.left

theorem name_of_mem {options : Options} (hunderscore : options.symbolPrefix = "_") {name : String}
    (h : options.functionLabel name ∈ (builtin.code options).labels) : builtin.name = name := by
  rw [labels_code] at h
  rcases List.mem_cons.mp h with heq | h
  · exact (Program.functionLabel_inj heq).symm
  · obtain ⟨other, heq, hhead⟩ := builtin.head_of_mem_labels_body h
    cases heq
    simp [hunderscore] at hhead

theorem mem_references_code {options : Options} {reference : Reference}
    (h : reference ∈ (builtin.code options).references) :
    ∃ label ∈ (builtin.code options).labels, reference = .branch label := by
  rw [code, Code.references_append, Options.references_functionHeader, List.nil_append] at h
  cases builtin
  have hmem : reference ∈ [.branch digitLabel, .branch writeLabel] := h
  rw [labels_code]
  rcases List.mem_cons.mp hmem with rfl | hmem
  · exact ⟨digitLabel, List.mem_cons_of_mem _ List.mem_cons_self, rfl⟩
  · exact ⟨writeLabel, List.mem_cons_of_mem _ (List.mem_cons_of_mem _ List.mem_cons_self),
      List.mem_singleton.mp hmem⟩

end Builtin

theorem StaticData.labels_code (table : StaticData) :
    table.code.labels = (List.range table.texts.length).map (.datum .string) := by
  have hdatum : ∀ datums : List Datum, Code.labels (datums.flatMap Datum.code) = datums.map Datum.label := by
    intro datums
    induction datums with
    | nil => rfl
    | cons datum datums ih => simp [Datum.code, DatumKind.alignment, ih]
  rw [code, Code.labels_directive, hdatum]
  refine List.ext_getElem (by simp [data]) fun i _ _ => ?_
  simp [data, Datum.label]

/-! ## The parts of a unit -/

namespace Program

structure Parts where
  functions : List Code
  helpers : List Builtin
  data : StaticData

namespace Parts

def sections (parts : Parts) (options : Options) : List Code :=
  parts.functions ++ parts.helpers.map (Builtin.code · options)

def code (parts : Parts) (options : Options) : Code :=
  .directive .textSection :: (parts.sections options).flatten ++ parts.data.code

end Parts

def names (program : Program) : List String := program.functions.map Function.name

/-- Whether the function is compiled to this code in some session with these options. -/
def Compiles (options : Options) (function : Function) (code : Code) : Prop :=
  ∃ σ τ : Session, σ.options = options ∧ function.compile.run σ = (.ok code, τ)

variable {σ τ : Session} {code : Code} {functions : List Function} {options : Options}

theorem compileFunctions_codes (h : (compileFunctions functions).run σ = (.ok code, τ)) :
    ∃ codes, code = codes.flatten ∧ List.Forall₂ (Compiles σ.options) functions codes := by
  induction functions generalizing σ code with
  | nil =>
    cases h
    exact ⟨[], rfl, .nil⟩
  | cons function functions ih =>
    obtain ⟨functionCode, restCode, σ₁, hfunction, hrest, rfl⟩ := compileFunctions_cons_ok h
    obtain ⟨codes, rfl, hcodes⟩ := ih hrest
    rw [(Function.compile_follows hfunction).options] at hcodes
    exact ⟨functionCode :: codes, rfl, .cons ⟨σ, σ₁, rfl, hfunction⟩ hcodes⟩

theorem exists_function {codes : List Code} (h : List.Forall₂ (Compiles options) functions codes)
    (hmem : code ∈ codes) : ∃ function ∈ functions, Compiles options function code := by
  induction h with
  | nil => cases hmem
  | @cons function functionCode functions codes hcompiles _ ih =>
    rcases List.mem_cons.mp hmem with rfl | hmem
    · exact ⟨function, List.mem_cons_self, hcompiles⟩
    · obtain ⟨other, hother, hcompiles⟩ := ih hmem
      exact ⟨other, List.mem_cons_of_mem _ hother, hcompiles⟩

theorem compile_parts_entered {program : Program} (h : program.compile.run σ = (.ok code, τ)) :
    ∃ parts : Parts, code = parts.code σ.options ∧ parts.helpers = τ.neededBuiltins ∧ parts.data = τ.data ∧
      (compileFunctions program.functions).run (program.entered σ) = (.ok parts.functions.flatten, τ) ∧
      List.Forall₂ (Compiles σ.options) program.functions parts.functions ∧ program.names.Nodup := by
  obtain ⟨functionsCode, hfunctions, rfl, hnames⟩ := compile_ok_entered h
  obtain ⟨codes, rfl, hcodes⟩ := compileFunctions_codes hfunctions
  refine ⟨⟨codes, τ.neededBuiltins, τ.data⟩, ?_, rfl, rfl, hfunctions, hcodes, hnames⟩
  have hoptions : τ.options = σ.options := (compileFunctions_follows hfunctions).options
  simp only [Parts.code, Parts.sections, List.flatten_append, ← List.flatMap_def, hoptions,
    List.cons_append]

theorem compile_parts {program : Program}
    (h : program.compile.run (Session.start options) = (.ok code, τ)) :
    ∃ parts : Parts, code = parts.code options ∧ parts.helpers = τ.neededBuiltins ∧ parts.data = τ.data ∧
      (compileFunctions program.functions).run (program.tables options) =
        (.ok parts.functions.flatten, τ) ∧
      List.Forall₂ (Compiles options) program.functions parts.functions ∧ program.names.Nodup :=
  program.entered_start options ▸ compile_parts_entered h

/-! ## Labels of a unit -/

theorem functionLabel_eq (hunderscore : options.symbolPrefix = "_") (name : String) :
    options.functionLabel name = ({} : Options).functionLabel name := by
  rw [Options.functionLabel, hunderscore, Options.functionLabel]

namespace Parts

variable (parts : Parts)

theorem labels_code (options : Options) : (parts.code options).labels =
    Code.labels parts.functions.flatten ++ parts.helpers.flatMap (fun builtin => (builtin.code options).labels) ++
      parts.data.code.labels := by
  simp [code, sections, Code.labels_flatten, List.flatMap_map]

end Parts

theorem nodup_neededBuiltins (session : Session) : session.neededBuiltins.Nodup :=
  List.Nodup.filter _ (by decide)

section Distinct

variable {parts : Parts} {names : List String}

theorem placed_of_mem (hunderscore : options.symbolPrefix = "_")
    (hof : ∀ label ∈ Code.labels parts.functions.flatten, OfFunctions names σ τ label) :
    ∀ label ∈ (parts.code options).labels, label.Placed := by
  intro label hmem
  simp only [Parts.labels_code, List.mem_append, List.mem_flatMap, StaticData.labels_code, List.mem_map] at hmem
  rcases hmem with (hmem | ⟨builtin, -, hmem⟩) | ⟨id, -, rfl⟩
  · exact (hof label hmem).placed
  · rw [Builtin.labels_code, List.mem_cons] at hmem
    rcases hmem with rfl | hmem
    · exact Label.placed_functionLabel hunderscore builtin.name
    · obtain ⟨name, rfl, hhead⟩ := builtin.head_of_mem_labels_body hmem
      exact Or.inr hhead
  · trivial

theorem not_ofFunctions_of_mem (hunderscore : options.symbolPrefix = "_") {builtin : Builtin} {label : Label}
    (hname : builtin.name ∉ names) (hmem : label ∈ (builtin.code options).labels) :
    ¬ OfFunctions names σ τ label := by
  obtain ⟨other, hnamed⟩ := builtin.exists_named_of_mem hmem
  rintro (⟨name, hmem', rfl | rfl⟩ | hbetween)
  · rw [← functionLabel_eq hunderscore] at hmem
    exact hname (builtin.name_of_mem hunderscore hmem ▸ hmem')
  · cases hnamed
  · cases hnamed
    exact hbetween

theorem nodup_labels_code (hunderscore : options.symbolPrefix = "_")
    (hof : ∀ label ∈ Code.labels parts.functions.flatten, OfFunctions names σ τ label)
    (hnodup : (Code.labels parts.functions.flatten).Nodup) (honce : parts.helpers.Nodup)
    (hhelpers : ∀ builtin ∈ parts.helpers, builtin.name ∉ names) :
    ((parts.code options).labels.map Label.text).Nodup := by
  refine List.Nodup.map_on (fun a ha b hb => Label.text_inj (placed_of_mem hunderscore hof a ha)
    (placed_of_mem hunderscore hof b hb)) ?_
  rw [Parts.labels_code, List.nodup_append', List.nodup_append', List.nodup_flatMap]
  refine ⟨⟨hnodup, ⟨fun builtin _ => ?_, ?_⟩, fun label hfunction hhelper => ?_⟩, ?_, fun label hmem hdatum => ?_⟩
  · rw [Builtin.labels_code]
    refine List.nodup_cons.mpr ⟨fun hmem => ?_, builtin.nodup_labels_body⟩
    obtain ⟨name, hname, hhead⟩ := builtin.head_of_mem_labels_body hmem
    cases hname
    simp [hunderscore] at hhead
  · exact honce.imp fun {a b} hne => absurd (by cases a; cases b; rfl) hne
  · obtain ⟨builtin, hbuiltin, hmem⟩ := List.mem_flatMap.mp hhelper
    exact not_ofFunctions_of_mem hunderscore (hhelpers builtin hbuiltin) hmem (hof label hfunction)
  · rw [StaticData.labels_code]
    exact List.nodup_range.map fun a b h => (Label.datum.inj h).2
  · rw [StaticData.labels_code] at hdatum
    obtain ⟨id, -, rfl⟩ := List.mem_map.mp hdatum
    rcases List.mem_append.mp hmem with hmem | hmem
    · rcases hof _ hmem with ⟨name, -, hlabel | hlabel⟩ | hbetween
      · cases hlabel
      · cases hlabel
      · exact hbetween
    · obtain ⟨builtin, -, hmem⟩ := List.mem_flatMap.mp hmem
      obtain ⟨name, hnamed⟩ := builtin.exists_named_of_mem hmem
      cases hnamed

end Distinct

end Program

end ArmBackend
