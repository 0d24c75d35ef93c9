import ArmBackend.Proofs.Function.Events
import ArmBackend.Proofs.Program.Links

/-!
# Definitions in front of builtins

A reference to a builtin counts unless the name is defined when the reference is made. A definition that
comes later does not take it back, so a unit that follows others may define a function that has the label of
a helper in the same text.
-/

namespace ArmBackend

open Event (refers)
open Session (Performs)

/-! ## Any events in turn -/

namespace Session

variable {σ τ : Session} {options : Options}

theorem isDefined_perform (event : Event) {name : String} (h : σ.isDefined name = true) :
    (event.perform σ).isDefined name = true := by
  rw [isDefined, newest?_isSome] at h ⊢
  obtain ⟨signature, hmem, hname⟩ := h
  refine ⟨signature, ?_, hname⟩
  cases event with
  | declare other =>
    obtain ⟨declared, heq⟩ := Event.perform_declare other σ
    rwa [heq]
  | define other =>
    obtain ⟨defined, hsubset, heq⟩ := Event.perform_define other σ
    rw [heq]
    exact hsubset hmem
  | refer other =>
    obtain ⟨usedBuiltins, heq⟩ := markUsed_eq other σ
    rwa [Event.perform, heq]

theorem isDefined_foldl (events : List Event) {name : String} (h : σ.isDefined name = true) :
    (events.foldl Event.perform σ).isDefined name = true := by
  induction events generalizing σ with
  | nil => exact h
  | cons event events ih => exact ih (isDefined_perform event h)

theorem options_perform (event : Event) : (event.perform σ).options = σ.options := by
  cases event with
  | declare signature =>
    obtain ⟨declared, heq⟩ := Event.perform_declare signature σ
    rw [heq]
  | define signature =>
    obtain ⟨defined, -, heq⟩ := Event.perform_define signature σ
    rw [heq]
  | refer name =>
    obtain ⟨usedBuiltins, heq⟩ := markUsed_eq name σ
    rw [Event.perform, heq]

theorem options_foldl (events : List Event) : (events.foldl Event.perform σ).options = σ.options := by
  induction events generalizing σ with
  | nil => rfl
  | cons event events ih => exact ih.trans (options_perform event)

theorem mem_used_perform (event : Event) {builtin : Builtin} :
    builtin ∈ (event.perform σ).usedBuiltins ↔
      builtin ∈ σ.usedBuiltins ∨ event = .refer builtin.name ∧ σ.isDefined builtin.name = false := by
  cases event with
  | declare signature =>
    obtain ⟨declared, heq⟩ := Event.perform_declare signature σ
    simp [heq]
  | define signature =>
    obtain ⟨defined, -, heq⟩ := Event.perform_define signature σ
    simp [heq]
  | refer name =>
    rw [Event.perform, mem_markUsed, Event.refer.injEq]
    exact or_congr_right (and_congr_left' eq_comm)

theorem mem_used_foldl (events : List Event) {builtin : Builtin} :
    builtin ∈ (events.foldl Event.perform σ).usedBuiltins ↔ builtin ∈ σ.usedBuiltins ∨
      ∃ earlier later, events = earlier ++ .refer builtin.name :: later ∧
        (earlier.foldl Event.perform σ).isDefined builtin.name = false := by
  induction events generalizing σ with
  | nil => simp
  | cons event events ih =>
    rw [List.foldl_cons, ih, mem_used_perform, or_assoc]
    refine or_congr_right ⟨?_, ?_⟩
    · rintro (⟨rfl, hdefined⟩ | ⟨earlier, later, rfl, hdefined⟩)
      · exact ⟨[], events, rfl, hdefined⟩
      · exact ⟨event :: earlier, later, rfl, hdefined⟩
    · rintro ⟨earlier, later, heq, hdefined⟩
      cases earlier with
      | nil =>
        cases heq
        exact Or.inl ⟨rfl, hdefined⟩
      | cons first earlier =>
        cases heq
        exact Or.inr ⟨earlier, later, rfl, hdefined⟩

def told (options : Options) (events : List Event) : Session := events.foldl Event.perform (start options)

theorem mem_neededBuiltins_told (events : List Event) {builtin : Builtin} :
    builtin ∈ (told options events).neededBuiltins ↔
      ∃ earlier later, events = earlier ++ .refer builtin.name :: later ∧
        (told options earlier).isDefined builtin.name = false := by
  rw [mem_neededBuiltins, told, mem_used_foldl]
  exact or_iff_right List.not_mem_nil

/-- No builtin is defined after a reference that came before every definition of it. -/
def Timely (options : Options) (events : List Event) : Prop :=
  ∀ (builtin : Builtin) earlier later, events = earlier ++ .refer builtin.name :: later →
    (told options earlier).isDefined builtin.name = false → (told options events).isDefined builtin.name = false

theorem told_isDefined_append {earlier : List Event} {name : String} (later : List Event)
    (h : (told options (earlier ++ later)).isDefined name = false) :
    (told options earlier).isDefined name = false := by
  rw [← Bool.not_eq_true] at h ⊢
  refine fun hdefined => h ?_
  rw [told, List.foldl_append]
  exact isDefined_foldl later hdefined

theorem timely_iff (events : List Event) : Timely options events ↔ ∀ builtin : Builtin,
    builtin ∈ (told options events).neededBuiltins ↔
      .refer builtin.name ∈ events ∧ (told options events).isDefined builtin.name = false := by
  constructor
  · intro htimely builtin
    rw [mem_neededBuiltins_told]
    constructor
    · rintro ⟨earlier, later, rfl, hdefined⟩
      exact ⟨List.mem_append_right _ List.mem_cons_self, htimely builtin earlier later rfl hdefined⟩
    · rintro ⟨hmem, hdefined⟩
      obtain ⟨earlier, later, rfl⟩ := List.append_of_mem hmem
      exact ⟨earlier, later, rfl, told_isDefined_append _ hdefined⟩
  · intro hneeded builtin earlier later heq hdefined
    exact ((hneeded builtin).mp ((mem_neededBuiltins_told events).mpr ⟨earlier, later, heq, hdefined⟩)).2

end Session

/-! ## Units -/

namespace Program

variable {σ τ : Session} {code : Code} {program : Program}

theorem compileFunctions_refers (functions : List Function) :
    Performs (refers (functions.flatMap Function.callees)) (compileFunctions functions) := by
  induction functions with
  | nil => exact .pure _
  | cons function functions ih =>
    exact .bind_refers function.compile_refers fun _ => .bind_quiet ih fun _ => .pure _

/-- What a unit tells: its declarations, its definitions, and then what its functions call. -/
def events (program : Program) : List Event :=
  program.declarations.map .declare ++ (program.functions.map (fun function => .define function.signature) ++
    refers program.callees)

theorem compile_performs (program : Program) : Performs program.events program.compile :=
  .bind (.forM .declare) fun _ => .bind (.forM fun function => .define function.signature) fun _ =>
    .bind_quiet (compileFunctions_refers _) fun _ => .quiet_bind .get fun _ => .pure _

theorem mem_neededBuiltins_compile (h : program.compile.run σ = (.ok code, τ)) (builtin : Builtin) :
    builtin ∈ τ.neededBuiltins ↔ builtin ∈ σ.neededBuiltins ∨
      builtin.name ∈ program.callees ∧ (program.entered σ).isDefined builtin.name = false := by
  obtain ⟨functionsCode, hrun, -, -⟩ := compile_ok_entered h
  rw [Session.mem_neededBuiltins, Session.mem_neededBuiltins]
  exact (compileFunctions_links hrun).used builtin

theorem isDefined_entered {name : String} (h : name ∈ program.names) :
    (program.entered σ).isDefined name = true := by
  obtain ⟨function, hmem, rfl⟩ := List.mem_map.mp h
  rw [Session.isDefined, Session.newest?_isSome]
  refine ⟨function.signature, List.mem_append_left _ ?_, rfl⟩
  exact List.mem_reverse.mpr (List.mem_map_of_mem hmem)

theorem mem_helpers_and_names (h : program.compile.run σ = (.ok code, τ)) (builtin : Builtin) :
    builtin ∈ τ.neededBuiltins ∧ builtin.name ∈ program.names ↔
      builtin ∈ σ.neededBuiltins ∧ builtin.name ∈ program.names := by
  refine and_congr_left fun hname => ?_
  rw [mem_neededBuiltins_compile h, isDefined_entered hname]
  simp

theorem nodup_labels_iff (hunderscore : σ.options.symbolPrefix = "_")
    (h : program.compile.run σ = (.ok code, τ)) :
    (code.labels.map Label.text).Nodup ↔
      ∀ builtin ∈ σ.neededBuiltins, builtin.name ∉ program.names := by
  obtain ⟨parts, rfl, hhelpers, -, hrun, hfunctions, hnames⟩ := compile_parts_entered h
  have hunderscore' : (program.entered σ).options.symbolPrefix = "_" := hunderscore
  obtain ⟨hof, hnodup⟩ := compileFunctions_labels hunderscore' hnames hrun
  constructor
  · intro hdistinct builtin hneeded hname
    obtain ⟨hhelper, -⟩ := (mem_helpers_and_names h builtin).mpr ⟨hneeded, hname⟩
    have hlabels := List.Nodup.of_map _ hdistinct
    rw [Parts.labels_code, List.nodup_append', List.nodup_append'] at hlabels
    obtain ⟨⟨-, -, hdisjoint⟩, -, -⟩ := hlabels
    obtain ⟨functionCode, hcode, hsymbol⟩ := exists_symbol hfunctions hname
    refine hdisjoint ?_ (List.mem_flatMap.mpr ⟨builtin, hhelpers ▸ hhelper, builtin.symbol_mem_code σ.options⟩)
    rw [Code.labels_flatten]
    exact List.mem_flatMap.mpr ⟨functionCode, hcode, hsymbol⟩
  · intro hnone
    refine nodup_labels_code hunderscore hof hnodup (hhelpers ▸ nodup_neededBuiltins τ) fun builtin hmem hname => ?_
    rw [hhelpers] at hmem
    exact hnone builtin ((mem_helpers_and_names h builtin).mp ⟨hmem, hname⟩).1 hname

end Program

/-! ## Any commands in turn -/

/-- What a session is asked for: an event, or to compile a unit. -/
inductive Command where
  | tell (event : Event)
  | unit (program : Program)

namespace Command

def run (session : Session) : Command → Session
  | .tell event => event.perform session
  | .unit program => (program.compile.run session).2

/-- The events of a command. A unit that fails has a first part of its events. -/
def Tells (session : Session) : Command → List Event → Prop
  | .tell event, done => done = [event]
  | .unit program, done => done <+: program.events ∧
    ∀ code, (program.compile.run session).1 = .ok code → done = program.events

inductive History : Session → List Command → List Event → Prop
  | nil (session : Session) : History session [] []
  | cons {session : Session} {command : Command} {commands : List Command} {done events : List Event}
      (hfirst : command.Tells session done) (hrest : History (command.run session) commands events) :
      History session (command :: commands) (done ++ events)

theorem exists_tells (command : Command) (session : Session) :
    ∃ done, command.Tells session done ∧ (command.run session).roll = (done.foldl Event.perform session).roll := by
  cases command with
  | tell event => exact ⟨[event], rfl, rfl⟩
  | unit program =>
    obtain ⟨done, hle, hroll, hall⟩ := program.compile_performs session
    exact ⟨done, ⟨hle, hall⟩, hroll⟩

/-- Commands change the tables and the builtins in use as their events do. -/
theorem exists_history (commands : List Command) (session : Session) :
    ∃ events, History session commands events ∧
      (commands.foldl run session).roll = (events.foldl Event.perform session).roll := by
  induction commands generalizing session with
  | nil => exact ⟨[], .nil session, rfl⟩
  | cons command commands ih =>
    obtain ⟨done, htells, hroll⟩ := command.exists_tells session
    obtain ⟨events, hhistory, hroll'⟩ := ih (command.run session)
    refine ⟨done ++ events, .cons htells hhistory, ?_⟩
    rw [List.foldl_append]
    exact hroll'.trans (Event.roll_foldl events hroll)

end Command

open Session (start told Timely)
open Program (Parts Compiles)

/-- Whatever a new session is told and whatever units it compiles, failed ones included, a builtin is needed
exactly if a reference to it was made while its name was not defined. That is to say if it is referred to and not
defined, unless a definition came after such a reference. A unit that defines the name of a builtin that was
needed before it has both the function and the helper under one label, and no other unit has two labels
that are written the same. -/
theorem Session.builtin_needed_iff (options : Options) (commands : List Command) :
    let σ := commands.foldl Command.run (start options)
    ∃ events, Command.History (start options) commands events ∧
      (∀ name, σ.isDefined name = (told options events).isDefined name) ∧
      (∀ builtin : Builtin, builtin ∈ σ.neededBuiltins ↔
        ∃ earlier later, events = earlier ++ .refer builtin.name :: later ∧
          (told options earlier).isDefined builtin.name = false) ∧
      (Timely options events ↔ ∀ builtin : Builtin, builtin ∈ σ.neededBuiltins ↔
        .refer builtin.name ∈ events ∧ σ.isDefined builtin.name = false) ∧
      ∀ (program : Program) code τ, program.compile.run σ = (.ok code, τ) →
        ∃ parts : Parts, code = parts.code options ∧
          List.Forall₂ (Compiles options) program.functions parts.functions ∧
          (∀ builtin, builtin ∈ parts.helpers ∧ builtin.name ∈ program.names ↔
            builtin ∈ σ.neededBuiltins ∧ builtin.name ∈ program.names) ∧
          (options.symbolPrefix = "_" → ((code.labels.map Label.text).Nodup ↔
            ∀ builtin ∈ σ.neededBuiltins, builtin.name ∉ program.names)) := by
  intro σ
  obtain ⟨events, hhistory, hroll⟩ := Command.exists_history commands (start options)
  obtain ⟨hoptions, -, hdefined, hused⟩ := roll_eq_iff.mp hroll
  have hisDefined : ∀ name, σ.isDefined name = (told options events).isDefined name := fun name => by
    rw [isDefined, isDefined, told, ← hdefined]
  have hneeded : ∀ builtin : Builtin,
      builtin ∈ σ.neededBuiltins ↔ builtin ∈ (told options events).neededBuiltins := fun builtin => by
    rw [mem_neededBuiltins, mem_neededBuiltins, told, ← hused]
  have hσ : σ.options = options := hoptions.trans (options_foldl events)
  refine ⟨events, hhistory, hisDefined, fun builtin => ?_, ?_, fun program code τ hrun => ?_⟩
  · rw [hneeded, mem_neededBuiltins_told]
  · simp only [hneeded, hisDefined]
    exact timely_iff events
  · obtain ⟨parts, hcode, hhelpers, -, -, hfunctions, -⟩ := Program.compile_parts_entered hrun
    rw [hσ] at hcode hfunctions
    refine ⟨parts, hcode, hfunctions, fun builtin => ?_, fun hunderscore => ?_⟩
    · rw [hhelpers]
      exact Program.mem_helpers_and_names hrun builtin
    · exact Program.nodup_labels_iff (hσ ▸ hunderscore) hrun

/-- A builtin stays needed if its name is defined after a reference, and a unit that defines it after another
unit called it has its label twice. -/
theorem Session.builtin_needed_though_defined :
    let printi : Signature := ⟨.void, "printi", [⟨.int, "x"⟩]⟩
    let first : Program := ⟨[], [⟨⟨.int, "main", []⟩, [.call "printi" [.literal (.int 3) .int]]⟩]⟩
    let second : Program := ⟨[], [⟨printi, []⟩]⟩
    let marked := told {} [.refer "printi", .define printi]
    (marked.isDefined "printi" = true ∧ .printInt ∈ marked.neededBuiltins) ∧
      ∃ code τ, second.compile.run (first.compile.run (start {})).2 = (.ok code, τ) ∧
        τ.isDefined "printi" = true ∧ .printInt ∈ τ.neededBuiltins ∧
        (code.labels.map Label.text).count "_printi" = 2 := by
  intro printi first second marked
  refine ⟨⟨by decide +kernel, by decide +kernel⟩, ?_⟩
  obtain ⟨code, τ, hrun, htest⟩ := StepM.exists_of_any
    (second.compile.run (first.compile.run (start {})).2)
    (fun code τ => τ.isDefined "printi" && τ.neededBuiltins.contains .printInt &&
      (code.labels.map Label.text).count "_printi" == 2) (by decide +kernel)
  simp only [Bool.and_eq_true, List.contains_iff_mem, beq_iff_eq] at htest
  exact ⟨code, τ, hrun, htest.1.1, htest.1.2, htest.2⟩

end ArmBackend
