import ArmBackend.Program
import ArmBackend.Proofs.Function.Progress

/-!
# Progress of compiling a program

The functions of a unit have different names, and their code stands in one text without defining a label
twice.
-/

namespace ArmBackend

open Code (Labelled)

variable {σ τ : Session} {code : Code} {functions : List Function}

/-! ## Tables -/

namespace Session

theorem newest?_isSome {table : List Signature} {name : String} :
    (newest? table name).isSome = true ↔ ∃ signature ∈ table, signature.name = name := by
  simp [newest?]

theorem declare_adds {signature : Signature} (h : (declare signature).run σ = (.ok (), τ)) :
    τ = { σ with declared := signature :: σ.declared } := by
  obtain ⟨session, σ₁, hget, h₁⟩ := StepM.run_bind_eq_ok.mp h
  cases hget
  split at h₁ <;> cases h₁
  rfl

theorem define_ok {signature : Signature} (h : (define signature).run σ = (.ok (), τ)) :
    (∀ other ∈ σ.defined, other.name ≠ signature.name) ∧
      τ = { σ with defined := signature :: σ.defined } := by
  simp only [define, StepM.run_bind, StepM.run_get] at h
  split at h
  case isTrue => cases h
  case isFalse =>
    split at h
    case isTrue => cases h
    case isFalse hdefined =>
      cases h
      refine ⟨fun other hother hname => hdefined ?_, rfl⟩
      exact newest?_isSome.mpr ⟨other, hother, hname⟩

theorem declare_all_adds {signatures : List Signature} (h : (signatures.forM declare).run σ = (.ok (), τ)) :
    τ = { σ with declared := signatures.reverse ++ σ.declared } := by
  induction signatures generalizing σ with
  | nil =>
    cases h
    rfl
  | cons signature signatures ih =>
    obtain ⟨_, σ₁, hfirst, hrest⟩ := StepM.run_bind_eq_ok.mp h
    cases declare_adds hfirst
    rw [ih hrest, List.reverse_cons, List.append_assoc]
    rfl

theorem define_all_ok (h : (functions.forM fun function => define function.signature).run σ = (.ok (), τ)) :
    (functions.map Function.name).Nodup ∧
      ∀ signature ∈ σ.defined, ∀ function ∈ functions, signature.name ≠ function.name := by
  induction functions generalizing σ with
  | nil =>
    cases h
    exact ⟨List.nodup_nil, nofun⟩
  | cons function functions ih =>
    obtain ⟨_, σ₁, hfirst, hrest⟩ := StepM.run_bind_eq_ok.mp h
    obtain ⟨hnew, rfl⟩ := define_ok hfirst
    obtain ⟨hnodup, hapart⟩ := ih hrest
    refine ⟨List.nodup_cons.mpr ⟨fun hmem => ?_, hnodup⟩, fun signature hsignature other hother => ?_⟩
    · obtain ⟨other, hother, hname⟩ := List.mem_map.mp hmem
      exact hapart function.signature List.mem_cons_self other hother hname.symm
    · rcases List.mem_cons.mp hother with rfl | hother
      · exact hnew signature hsignature
      · exact hapart signature (List.mem_cons_of_mem _ hsignature) other hother

theorem define_all_adds
    (h : (functions.forM fun function => define function.signature).run σ = (.ok (), τ)) :
    τ = { σ with defined := (functions.map Function.signature).reverse ++ σ.defined } := by
  induction functions generalizing σ with
  | nil =>
    cases h
    rfl
  | cons function functions ih =>
    obtain ⟨_, σ₁, hfirst, hrest⟩ := StepM.run_bind_eq_ok.mp h
    obtain ⟨-, rfl⟩ := define_ok hfirst
    rw [ih hrest, List.map_cons, List.reverse_cons, List.append_assoc]
    rfl

end Session

/-! ## Functions one after the other -/

namespace Program

theorem compileFunctions_cons_ok {function : Function}
    (h : (compileFunctions (function :: functions)).run σ = (.ok code, τ)) :
    ∃ functionCode restCode σ₁, function.compile.run σ = (.ok functionCode, σ₁) ∧
      (compileFunctions functions).run σ₁ = (.ok restCode, τ) ∧ code = functionCode ++ restCode := by
  obtain ⟨functionCode, σ₁, hfunction, h₁⟩ := StepM.run_bind_eq_ok.mp h
  obtain ⟨restCode, σ₂, hrest, h₂⟩ := StepM.run_bind_eq_ok.mp h₁
  cases h₂
  exact ⟨functionCode, restCode, σ₁, hfunction, hrest, rfl⟩

theorem compileFunctions_follows (h : (compileFunctions functions).run σ = (.ok code, τ)) :
    Function.Follows σ τ := by
  induction functions generalizing σ code with
  | nil =>
    cases h
    exact .refl _
  | cons function functions ih =>
    obtain ⟨functionCode, restCode, σ₁, hfunction, hrest, -⟩ := compileFunctions_cons_ok h
    exact (Function.compile_follows hfunction).trans (ih hrest)

theorem compileFunctions_records (hnamed : ∀ function ∈ functions, function.name ≠ "")
    (h : (compileFunctions functions).run σ = (.ok code, τ)) : σ.stats.Within τ.stats := by
  induction functions generalizing σ code with
  | nil =>
    cases h
    exact .refl _
  | cons function functions ih =>
    obtain ⟨functionCode, restCode, σ₁, hfunction, hrest, -⟩ := compileFunctions_cons_ok h
    exact (Function.compile_records (hnamed function List.mem_cons_self) hfunction).trans
      (ih (fun other hother => hnamed other (List.mem_cons_of_mem _ hother)) hrest)

theorem exists_code (h : (compileFunctions functions).run σ = (.ok code, τ)) {function : Function}
    (hmem : function ∈ functions) :
    ∃ before functionCode after σ₁ τ₁ others others', code = before ++ functionCode ++ after ∧
      functions = others ++ function :: others' ∧
      (compileFunctions others).run σ = (.ok before, σ₁) ∧
      function.compile.run σ₁ = (.ok functionCode, τ₁) ∧
      (compileFunctions others').run τ₁ = (.ok after, τ) := by
  induction functions generalizing σ code with
  | nil => exact absurd hmem List.not_mem_nil
  | cons other functions ih =>
    obtain ⟨otherCode, restCode, σ', hother, hrest, rfl⟩ := compileFunctions_cons_ok h
    rcases List.mem_cons.mp hmem with rfl | hmem
    · exact ⟨[], otherCode, restCode, σ, σ', [], functions, rfl, rfl, rfl, hother, hrest⟩
    · obtain ⟨before, functionCode, after, σ₁, τ₁, others, others', rfl, rfl, hbefore, hcode, hafter⟩ :=
        ih hrest hmem
      refine ⟨otherCode ++ before, functionCode, after, σ₁, τ₁, other :: others, others', by simp, rfl, ?_,
        hcode, hafter⟩
      exact StepM.run_bind_eq_ok.mpr ⟨otherCode, σ', hother,
        StepM.run_bind_eq_ok.mpr ⟨before, σ₁, hbefore, rfl⟩⟩

/-! ## Labels -/

def OfFunctions (names : List String) (σ τ : Session) (label : Label) : Prop :=
  (∃ name ∈ names, label = ({} : Options).functionLabel name ∨ label = .returnOf name) ∨
    label.Between σ τ

theorem functionLabel_inj {options : Options} {name name' : String}
    (h : options.functionLabel name = options.functionLabel name') : name = name' :=
  (String.append_right_inj _).mp (Label.named.inj h)

namespace OfFunctions

variable {names names' : List String} {υ : Session} {label : Label}

theorem mono (h : OfFunctions names σ τ label) (hnames : ∀ name ∈ names, name ∈ names')
    {σ' τ' : Session} (hσ : σ'.Counts σ) (hτ : τ.Counts τ') : OfFunctions names' σ' τ' label :=
  h.imp (fun ⟨name, hname, hlabel⟩ => ⟨name, hnames name hname, hlabel⟩) fun h => h.mono hσ hτ

theorem apart (h : OfFunctions names σ τ label) (h' : OfFunctions names' τ υ label)
    (hnames : ∀ name ∈ names, name ∉ names') : False := by
  rcases h with ⟨name, hname, rfl | rfl⟩ | hbetween
  · rcases h' with ⟨name', hname', hlabel | hlabel⟩ | hbetween'
    · exact hnames name hname (functionLabel_inj hlabel ▸ hname')
    · cases hlabel
    · exact hbetween'
  · rcases h' with ⟨name', hname', hlabel | hlabel⟩ | hbetween'
    · cases hlabel
    · exact hnames name hname (Label.returnOf.inj hlabel ▸ hname')
    · exact hbetween'
  · rcases h' with ⟨name', hname', rfl | rfl⟩ | hbetween'
    · exact hbetween
    · exact hbetween
    · exact hbetween.apart hbetween' (.refl τ)

theorem placed (h : OfFunctions names σ τ label) : label.Placed := by
  rcases h with ⟨name, -, rfl | rfl⟩ | hbetween
  · exact Label.placed_functionLabel rfl name
  · trivial
  · exact hbetween.placed

end OfFunctions

theorem compile_labels {function : Function} (hunderscore : σ.options.symbolPrefix = "_")
    (h : function.compile.run σ = (.ok code, τ)) :
    (∀ label ∈ code.labels, OfFunctions [function.name] σ τ label) ∧ code.labels.Nodup := by
  obtain ⟨bodyCode, hlabelled, hlabels⟩ := Function.compile_labels h
  rw [Options.functionLabel, hunderscore] at hlabels
  rw [hlabels]
  refine ⟨fun label hmem => ?_, ?_⟩
  · simp only [List.mem_append, List.mem_cons, List.not_mem_nil, or_false] at hmem
    rcases hmem with (rfl | hmem) | rfl
    · exact Or.inl ⟨_, List.mem_singleton_self _, Or.inl rfl⟩
    · exact Or.inr (hlabelled.between label hmem)
    · exact Or.inl ⟨_, List.mem_singleton_self _, Or.inr rfl⟩
  · have hsymbol : ({} : Options).functionLabel function.name ∉ bodyCode.labels :=
      fun hmem => hlabelled.between _ hmem
    have hreturn : Label.returnOf function.name ∉ bodyCode.labels :=
      fun hmem => hlabelled.between _ hmem
    refine List.nodup_append'.mpr ⟨List.nodup_cons.mpr ⟨hsymbol, hlabelled.nodup⟩,
      List.nodup_singleton _, fun label hmem hmem' => ?_⟩
    obtain rfl := List.mem_singleton.mp hmem'
    rcases List.mem_cons.mp hmem with heq | hmem
    · cases heq
    · exact hreturn hmem

theorem compileFunctions_labels (hunderscore : σ.options.symbolPrefix = "_")
    (hnames : (functions.map Function.name).Nodup)
    (h : (compileFunctions functions).run σ = (.ok code, τ)) :
    (∀ label ∈ code.labels, OfFunctions (functions.map Function.name) σ τ label) ∧
      code.labels.Nodup := by
  induction functions generalizing σ code with
  | nil =>
    cases h
    exact ⟨nofun, List.nodup_nil⟩
  | cons function functions ih =>
    obtain ⟨functionCode, restCode, σ₁, hfunction, hrest, rfl⟩ := compileFunctions_cons_ok h
    have hfollows := Function.compile_follows hfunction
    obtain ⟨hname, hnames'⟩ := List.nodup_cons.mp hnames
    obtain ⟨hof, hnodup⟩ := compile_labels hunderscore hfunction
    obtain ⟨hof', hnodup'⟩ := ih (hfollows.options ▸ hunderscore) hnames' hrest
    have hcounts := (compileFunctions_follows hrest).toCounts
    rw [Code.labels_append]
    refine ⟨fun label hmem => ?_, List.nodup_append'.mpr ⟨hnodup, hnodup', fun label hmem hmem' => ?_⟩⟩
    · rcases List.mem_append.mp hmem with hmem | hmem
      · exact (hof label hmem).mono (by simp) (.refl σ) hcounts
      · exact (hof' label hmem).mono (fun _ => List.mem_cons_of_mem _) hfollows.toCounts (.refl τ)
    · exact (hof label hmem).apart (hof' label hmem') (by simpa using hname)

/-! ## The whole unit -/

def tables (program : Program) (options : Options) : Session :=
  { Session.start options with
    declared := program.declarations.reverse ++ Builtin.all.map Builtin.signature
    defined := (program.functions.map Function.signature).reverse }

/-- The session `σ` with all signatures of a unit in its tables. -/
def entered (program : Program) (σ : Session) : Session :=
  { σ with
    declared := program.declarations.reverse ++ σ.declared
    defined := (program.functions.map Function.signature).reverse ++ σ.defined }

theorem entered_start (program : Program) (options : Options) :
    program.entered (Session.start options) = program.tables options := by
  rw [entered, tables, Session.start, List.append_nil]

/-- The functions of a unit, whose names are different, the builtins it needs, and its data. The unit may
follow others. -/
theorem compile_ok_entered {program : Program} (h : program.compile.run σ = (.ok code, τ)) :
    ∃ functionsCode,
      (compileFunctions program.functions).run (program.entered σ) = (.ok functionsCode, τ) ∧
      code = .directive .textSection :: functionsCode ++
        τ.neededBuiltins.flatMap (Builtin.code · τ.options) ++ τ.data.code ∧
      (program.functions.map Function.name).Nodup := by
  obtain ⟨_, σ₁, hdeclare, h₁⟩ := StepM.run_bind_eq_ok.mp h
  obtain ⟨_, σ₂, hdefine, h₂⟩ := StepM.run_bind_eq_ok.mp h₁
  obtain ⟨functionsCode, σ₃, hfunctions, h₃⟩ := StepM.run_bind_eq_ok.mp h₂
  obtain ⟨hnames, -⟩ := Session.define_all_ok hdefine
  cases h₃
  rw [Session.define_all_adds hdefine, Session.declare_all_adds hdeclare] at hfunctions
  exact ⟨functionsCode, hfunctions, rfl, hnames⟩

theorem compile_ok {program : Program} {options : Options}
    (h : program.compile.run (Session.start options) = (.ok code, τ)) :
    ∃ functionsCode,
      (compileFunctions program.functions).run (program.tables options) = (.ok functionsCode, τ) ∧
      code = .directive .textSection :: functionsCode ++
        τ.neededBuiltins.flatMap (Builtin.code · τ.options) ++ τ.data.code ∧
      (program.functions.map Function.name).Nodup :=
  program.entered_start options ▸ compile_ok_entered h

theorem exists_hosts {program : Program} (hcompile : program.compile.run (Session.start {}) = (.ok code, τ))
    {function : Function} (hmem : function ∈ program.functions) (symbol : Label → Word) :
    ∃ pc functionCode σ τ₁, σ.options = {} ∧ function.compile.run σ = (.ok functionCode, τ₁) ∧
      τ₁.Counts τ ∧ (Image.mk code symbol).Hosts pc functionCode ∧
      ((∀ function ∈ program.functions, function.name ≠ "") →
        σ.stats.Sound ∧ τ₁.stats.Within τ.stats) := by
  obtain ⟨functionsCode, hfunctions, rfl, hnames⟩ := compile_ok hcompile
  obtain ⟨hof, hnodup⟩ := compileFunctions_labels rfl hnames hfunctions
  obtain ⟨before, functionCode, after, σ₁, τ₁, others, others', rfl, hsplit, hbefore, hfunction, hafter⟩ :=
    exists_code hfunctions hmem
  have hplaced : ∀ label ∈ ([.directive .textSection] ++ (before ++ functionCode ++ after) : Code).labels,
      label.Placed := fun label hlabel => (hof label hlabel).placed
  have hhosts : (Image.mk (.directive .textSection :: (before ++ functionCode ++ after) ++
      τ.neededBuiltins.flatMap (Builtin.code · τ.options) ++ τ.data.code) symbol).Hosts 1
        (before ++ functionCode ++ after) :=
    Image.hosts_of_nodup (List.append_assoc _ _ _) hplaced hnodup
  refine ⟨_, functionCode, σ₁, τ₁, (compileFunctions_follows hbefore).options, hfunction,
    (compileFunctions_follows hafter).toCounts, hhosts.append.1.append.2, fun hnamed => ?_⟩
  rw [hsplit] at hnamed
  have hsound : (program.tables {}).stats.Sound := fun _ => rfl
  exact ⟨(compileFunctions_records (fun other hother => hnamed other (List.mem_append_left _ hother))
    hbefore hsound).1, compileFunctions_records (fun other hother => hnamed other
      (List.mem_append_right _ (List.mem_cons_of_mem _ hother))) hafter⟩

end Program

end ArmBackend
