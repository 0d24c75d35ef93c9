import ArmBackend.Proofs.Program.Accepted

/-!
# The function tables of a session

Declarations and definitions are entered one by one, in any order. The tables never disagree about the types
of a function: a declaration is held against both tables, and a definition against the declarations and for
being the first of its name, which comes to the same.
-/

namespace ArmBackend

open Signature (Agree)

inductive Entry where
  | declare (signature : Signature)
  | define (signature : Signature)

namespace Entry

def signature : Entry → Signature
  | .declare signature | .define signature => signature

def enter : Entry → CompileM Unit
  | .declare signature => Session.declare signature
  | .define signature => Session.define signature

def declared? : Entry → Option Signature
  | .declare signature => some signature
  | .define _ => none

def defined? : Entry → Option Signature
  | .declare _ => none
  | .define signature => some signature

end Entry

/-- A session with the entries that it accepted, newest first. -/
structure Ledger where
  session : Session
  accepted : List Entry := []

namespace Ledger

def enter (ledger : Ledger) (entry : Entry) : Ledger :=
  match entry.enter.run ledger.session with
  | (.ok _, session) => ⟨session, entry :: ledger.accepted⟩
  | (.error _, session) => ⟨session, ledger.accepted⟩

def after (options : Options) (entries : List Entry) : Ledger :=
  entries.foldl enter { session := Session.start options }

def signatures (ledger : Ledger) : List Signature :=
  ledger.accepted.map Entry.signature ++ Builtin.all.map Builtin.signature

/-- Whether an entry has the types of all signatures of its name and defines nothing for the second time. -/
def Admits (ledger : Ledger) (entry : Entry) : Prop :=
  (∀ known ∈ ledger.signatures, known.name = entry.signature.name →
    known.returnTy = entry.signature.returnTy ∧
      known.params.map Param.ty = entry.signature.params.map Param.ty) ∧
  ∀ signature, entry = .define signature → ∀ other, .define other ∈ ledger.accepted →
    other.name ≠ signature.name

/-! ## What the tables hold -/

/-- The tables hold what was accepted, and its signatures agree. Nothing else of the session has changed. -/
structure Kept (options : Options) (ledger : Ledger) : Prop where
  session : ledger.session = { Session.start options with
    declared := ledger.accepted.filterMap Entry.declared? ++ Builtin.all.map Builtin.signature
    defined := ledger.accepted.filterMap Entry.defined? }
  agree : Agree ledger.signatures

variable {options : Options} {ledger : Ledger} {entry : Entry}

namespace Kept

theorem mem_tables (h : Kept options ledger) {signature : Signature} :
    signature ∈ ledger.session.declared ++ ledger.session.defined ↔ signature ∈ ledger.signatures := by
  have hentry : ∀ entry : Entry, entry.signature = signature ↔
      entry.declared? = some signature ∨ entry.defined? = some signature := fun entry => by
    cases entry <;> simp [Entry.signature, Entry.declared?, Entry.defined?]
  rw [h.session, signatures]
  simp only [List.mem_append, List.mem_filterMap, List.mem_map, hentry, and_or_left, exists_or]
  exact or_right_comm

theorem mem_defined (h : Kept options ledger) {signature : Signature} :
    signature ∈ ledger.session.defined ↔ .define signature ∈ ledger.accepted := by
  rw [h.session, List.mem_filterMap]
  constructor
  · rintro ⟨entry, hmem, heq⟩
    cases entry with
    | declare other => cases heq
    | define other =>
      cases heq
      exact hmem
  · exact fun hmem => ⟨_, hmem, rfl⟩

theorem agree_tables (h : Kept options ledger) : Agree (ledger.session.declared ++ ledger.session.defined) :=
  h.agree.of_subset fun _ => h.mem_tables.mp

end Kept

end Ledger

/-! ## One entry -/

namespace Session

variable {σ τ : Session} {signature : Signature} {e : CompileError}

theorem declare_succeeds_iff (hagree : Agree (σ.declared ++ σ.defined)) :
    (declare signature).Succeeds σ ↔ signature.Fits (σ.declared ++ σ.defined) := by
  have hfits : signature.Fits (σ.declared ++ σ.defined) ↔
      conflicts σ.declared signature = false ∧ conflicts σ.defined signature = false := by
    rw [conflicts_eq_false (hagree.of_subset fun _ => List.mem_append_left σ.defined),
      conflicts_eq_false (hagree.of_subset fun _ => List.mem_append_right σ.declared)]
    exact List.forall_mem_append
  rw [hfits, ← Bool.or_eq_false_iff]
  cases hconflicts : conflicts σ.declared signature || conflicts σ.defined signature with
  | true =>
    refine iff_of_false (fun ⟨_, _, hrun⟩ => ?_) nofun
    simp only [declare, StepM.run_bind, StepM.run_get, hconflicts, if_true] at hrun
    cases hrun
  | false =>
    obtain ⟨hdeclared, hdefined⟩ := Bool.or_eq_false_iff.mp hconflicts
    exact iff_of_true (by simp [StepM.Succeeds, declare, hdeclared, hdefined]) rfl

theorem declare_error (h : (declare signature).run σ = (.error e, τ)) : τ = σ := by
  simp only [declare, StepM.run_bind, StepM.run_get] at h
  split at h <;> cases h
  rfl

theorem define_error (h : (define signature).run σ = (.error e, τ)) : τ = σ := by
  simp only [define, StepM.run_bind, StepM.run_get] at h
  split at h
  case isTrue =>
    cases h
    rfl
  case isFalse =>
    split at h <;> cases h
    rfl

end Session

namespace Entry

variable {entry : Entry} {σ τ : Session} {e : CompileError}

def record : Entry → Session → Session
  | .declare signature, session => { session with declared := signature :: session.declared }
  | .define signature, session => { session with defined := signature :: session.defined }

theorem enter_ok {u : Unit} (h : entry.enter.run σ = (.ok u, τ)) : τ = entry.record σ := by
  cases entry with
  | declare signature => exact Session.declare_adds h
  | define signature => exact (Session.define_ok h).2

theorem enter_error (h : entry.enter.run σ = (.error e, τ)) : τ = σ := by
  cases entry with
  | declare signature => exact Session.declare_error h
  | define signature => exact Session.define_error h

end Entry

namespace Ledger

variable {options : Options} {ledger : Ledger} {entry : Entry}

theorem enter_cases (ledger : Ledger) (entry : Entry) :
    entry.enter.Succeeds ledger.session ∧
        ledger.enter entry = ⟨entry.record ledger.session, entry :: ledger.accepted⟩ ∨
      ¬ entry.enter.Succeeds ledger.session ∧ ledger.enter entry = ledger := by
  rw [enter]
  rcases hrun : entry.enter.run ledger.session with ⟨e | u, τ⟩
  · cases Entry.enter_error hrun
    refine Or.inr ⟨fun ⟨_, _, hok⟩ => ?_, rfl⟩
    rw [hrun] at hok
    cases hok
  · cases Entry.enter_ok hrun
    exact Or.inl ⟨⟨_, _, hrun⟩, rfl⟩

/-- An entry of agreeing tables is accepted exactly if the ledger admits it. -/
theorem Kept.succeeds_iff (h : Kept options ledger) :
    entry.enter.Succeeds ledger.session ↔ ledger.Admits entry := by
  have hfits : entry.signature.Fits (ledger.session.declared ++ ledger.session.defined) ↔
      ∀ known ∈ ledger.signatures, known.name = entry.signature.name →
        known.returnTy = entry.signature.returnTy ∧
          known.params.map Param.ty = entry.signature.params.map Param.ty := by
    refine forall_congr' fun known => ?_
    rw [h.mem_tables]
    exact forall_congr' fun _ => forall_congr' fun hname => by
      rw [Signature.sameTypes_iff, and_iff_right hname]
  rw [Admits, ← hfits]
  cases entry with
  | declare signature =>
    rw [and_iff_left nofun]
    exact Session.declare_succeeds_iff h.agree_tables
  | define signature =>
    have hnew : (∀ other ∈ ledger.session.defined, other.name ≠ signature.name) ↔
        ∀ defined, Entry.define signature = .define defined → ∀ other, .define other ∈ ledger.accepted →
          other.name ≠ defined.name := by
      simp only [h.mem_defined, Entry.define.injEq, forall_eq']
    rw [← hnew]
    refine (Session.define_succeeds signature
      (h.agree_tables.of_subset fun _ => List.mem_append_left ledger.session.defined)).trans ?_
    -- A function without a definition has no signature among the definitions.
    refine and_congr_left fun hfirst => ?_
    have hdefined : signature.Fits ledger.session.defined := fun other hother hname =>
      absurd hname (hfirst other hother)
    exact (and_iff_left hdefined).symm.trans List.forall_mem_append.symm

theorem Kept.start (options : Options) : Kept options { session := Session.start options } where
  session := rfl
  agree := by
    intro a ha b hb _
    simp only [signatures, List.map_nil, List.nil_append, Builtin.all, List.map_cons, List.mem_singleton] at ha hb
    rw [ha, hb]
    exact Signature.sameTypes_refl _

theorem Kept.enter (h : Kept options ledger) (entry : Entry) : Kept options (ledger.enter entry) := by
  obtain ⟨hsucceeds, heq⟩ | ⟨-, heq⟩ := ledger.enter_cases entry
  · rw [heq]
    refine ⟨?_, Signature.agree_cons.mpr ⟨fun known hknown hname => ?_, h.agree⟩⟩
    · cases entry <;> (rw [Entry.record, h.session]; rfl)
    · exact Signature.sameTypes_iff.mpr ⟨hname, (h.succeeds_iff.mp hsucceeds).1 known hknown hname⟩
  · rw [heq]
    exact h

theorem after_kept (options : Options) (entries : List Entry) : Kept options (after options entries) := by
  have hrun : ∀ ledger, Kept options ledger → Kept options (entries.foldl Ledger.enter ledger) := by
    induction entries with
    | nil => exact fun _ h => h
    | cons entry entries ih => exact fun ledger h => ih _ (h.enter entry)
  exact hrun _ (.start options)

theorem after_append (options : Options) (entries more : List Entry) :
    after options (entries ++ more) = more.foldl enter (after options entries) := List.foldl_append

theorem signatures_after_append (options : Options) (entries more : List Entry) :
    ∀ signature ∈ (after options entries).signatures, signature ∈ (after options (entries ++ more)).signatures := by
  rw [after_append]
  generalize after options entries = ledger
  induction more generalizing ledger with
  | nil => exact fun _ h => h
  | cons entry more ih =>
    refine fun signature hmem => ih (ledger.enter entry) signature ?_
    obtain ⟨-, heq⟩ | ⟨-, heq⟩ := ledger.enter_cases entry
    · rw [heq]
      exact List.mem_cons_of_mem _ hmem
    · rwa [heq]

/-! ## Lookups -/

theorem Kept.mem_of_newest? (h : Kept options ledger) {name : String} {signature : Signature}
    (hnewest : (Session.newest? ledger.session.declared name).or
      (Session.newest? ledger.session.defined name) = some signature) :
    signature ∈ ledger.signatures ∧ signature.name = name := by
  rw [← h.mem_tables, List.mem_append]
  rcases Option.or_eq_some_iff.mp hnewest with hnewest | ⟨-, hnewest⟩
  · exact (Session.newest?_eq_some hnewest).imp_left Or.inl
  · exact (Session.newest?_eq_some hnewest).imp_left Or.inr

theorem Kept.exists_signatureOf (h : Kept options ledger) {signature : Signature}
    (hmem : signature ∈ ledger.signatures) :
    ∃ found, (Session.signatureOf signature.name).run ledger.session = (.ok found, ledger.session) ∧
      found ∈ ledger.signatures ∧ found.name = signature.name := by
  cases hnewest : (Session.newest? ledger.session.declared signature.name).or
      (Session.newest? ledger.session.defined signature.name) with
  | some found => exact ⟨found, by simp [Session.signatureOf, hnewest], h.mem_of_newest? hnewest⟩
  | none =>
    obtain ⟨hdeclared, hdefined⟩ := Option.or_eq_none_iff.mp hnewest
    have hnot : ∀ {table}, Session.newest? table signature.name = none → signature ∉ table := fun hnone hin => by
      have hsome := Session.newest?_isSome.mpr ⟨signature, hin, rfl⟩
      rw [hnone] at hsome
      cases hsome
    rcases List.mem_append.mp (h.mem_tables.mpr hmem) with hin | hin
    · exact absurd hin (hnot hdeclared)
    · exact absurd hin (hnot hdefined)

theorem Kept.isDefined_iff (h : Kept options ledger) (name : String) :
    ledger.session.isDefined name = true ↔
      ∃ signature, .define signature ∈ ledger.accepted ∧ signature.name = name := by
  rw [Session.isDefined, Session.newest?_isSome]
  exact exists_congr fun signature => and_congr_left fun _ => h.mem_defined

end Ledger

namespace Session

theorem newest?_cons (signature : Signature) (table : List Signature) (name : String) :
    newest? (signature :: table) name = if name = signature.name then some signature else newest? table name := by
  by_cases hname : signature.name = name
  · simp [newest?, hname]
  · simp [newest?, List.find?_cons_of_neg, hname, Ne.symm hname]

/-! ## The tables of a unit -/

def OnlyTables (σ τ : Session) : Prop := τ = { σ with declared := τ.declared, defined := τ.defined }

namespace OnlyTables

variable {σ τ υ : Session}

theorem refl (σ : Session) : OnlyTables σ σ := rfl

theorem trans (h : OnlyTables σ τ) (h' : OnlyTables τ υ) : OnlyTables σ υ := by
  rw [OnlyTables] at h
  rw [OnlyTables, h', h]

theorem enter (entry : Entry) (σ : Session) : OnlyTables σ (entry.enter.run σ).2 := by
  rcases hrun : entry.enter.run σ with ⟨e | u, τ⟩
  · exact Entry.enter_error hrun ▸ refl σ
  · cases Entry.enter_ok hrun
    cases entry <;> rfl

theorem forM {α : Type} (entry : α → Entry) (items : List α) (σ : Session) :
    OnlyTables σ ((items.forM fun item => (entry item).enter).run σ).2 := by
  induction items generalizing σ with
  | nil => exact refl σ
  | cons item items ih =>
    have hfirst := enter (entry item) σ
    change OnlyTables σ (((entry item).enter >>= fun _ => items.forM fun item => (entry item).enter).run σ).2
    rw [StepM.run_bind]
    rcases hrun : (entry item).enter.run σ with ⟨e | u, τ⟩ <;> rw [hrun] at hfirst
    · exact hfirst
    · exact hfirst.trans (ih τ)

end OnlyTables

end Session

namespace Program

/-- The part of a compilation that fills the function tables. -/
def enterSignatures (program : Program) : CompileM Unit := do
  program.declarations.forM Session.declare
  program.functions.forM (Session.define ·.signature)

theorem enterSignatures_onlyTables (program : Program) (σ : Session) :
    Session.OnlyTables σ (program.enterSignatures.run σ).2 := by
  have hdeclare := Session.OnlyTables.forM Entry.declare program.declarations σ
  have hdefine := Session.OnlyTables.forM (fun function : Function => .define function.signature)
    program.functions
  simp only [Entry.enter] at hdeclare hdefine
  rw [enterSignatures, StepM.run_bind]
  rcases hrun : (program.declarations.forM Session.declare).run σ with ⟨e | u, τ⟩
  · rw [hrun] at hdeclare
    exact hdeclare
  · rw [hrun] at hdeclare
    exact hdeclare.trans (hdefine τ)

theorem compile_of_enterSignatures_error {program : Program} {σ τ : Session} {e : CompileError}
    (h : program.enterSignatures.run σ = (.error e, τ)) : program.compile.run σ = (.error e, τ) := by
  rw [enterSignatures, StepM.run_bind] at h
  rw [compile, StepM.run_bind]
  rcases hdeclare : (program.declarations.forM Session.declare).run σ with ⟨e' | u, υ⟩ <;>
    simp only [hdeclare] at h ⊢
  · cases h
    rfl
  · rw [StepM.run_bind, h]

end Program

/-! ## Consistency -/

namespace Ledger

/-- Signatures are entered in a new session in any order. An entry is accepted exactly if it has the types of
all that was accepted under its name, and defines no function for the second time. A refused entry changes
nothing. An accepted one is found under its own name. A name that has a signature keeps one of the same types.
A unit whose signatures are refused leaves all of the session but the tables as it was. -/
theorem function_tables_consistent (options : Options) (entries : List Entry) :
    (∀ entry : Entry, entry.enter.Succeeds (after options entries).session ↔ (after options entries).Admits entry) ∧
    (∀ (entry : Entry) e τ, entry.enter.run (after options entries).session = (.error e, τ) →
      τ = (after options entries).session) ∧
    (∀ (entry : Entry) τ, entry.enter.run (after options entries).session = (.ok (), τ) → ∀ name,
      Session.newest? τ.declared name =
        (if name = entry.signature.name then entry.declared? else none).or
          (Session.newest? (after options entries).session.declared name) ∧
      Session.newest? τ.defined name =
        (if name = entry.signature.name then entry.defined? else none).or
          (Session.newest? (after options entries).session.defined name)) ∧
    (∀ name signature τ, (Session.signatureOf name).run (after options entries).session = (.ok signature, τ) →
      signature.name = name ∧ ∀ more, ∃ later,
        (Session.signatureOf name).run (after options (entries ++ more)).session =
          (.ok later, (after options (entries ++ more)).session) ∧
        later.returnTy = signature.returnTy ∧ later.params.map Param.ty = signature.params.map Param.ty) ∧
    (∀ name, (after options entries).session.isDefined name = true ↔
      ∃ signature, .define signature ∈ (after options entries).accepted ∧ signature.name = name) ∧
    ∀ (program : Program) σ τ e, program.enterSignatures.run σ = (.error e, τ) →
      program.compile.run σ = (.error e, τ) ∧ τ.nextIf = σ.nextIf ∧ τ.nextLoop = σ.nextLoop ∧ τ.data = σ.data ∧
        τ.stats = σ.stats := by
  have hkept := after_kept options entries
  refine ⟨fun _ => hkept.succeeds_iff, fun _ _ _ => Entry.enter_error, ?_, ?_, hkept.isDefined_iff, ?_⟩
  · intro entry τ hrun name
    cases Entry.enter_ok hrun
    cases entry with
    | declare signature =>
      refine ⟨(Session.newest?_cons _ _ _).trans ?_, by simp [Entry.record, Entry.defined?]⟩
      by_cases hname : name = signature.name <;> simp [hname, Entry.signature, Entry.declared?]
    | define signature =>
      refine ⟨by simp [Entry.record, Entry.declared?], (Session.newest?_cons _ _ _).trans ?_⟩
      by_cases hname : name = signature.name <;> simp [hname, Entry.signature, Entry.defined?]
  · intro name signature τ hrun
    obtain ⟨hnewest, -⟩ := Session.signatureOf_ok hrun
    obtain ⟨hmem, rfl⟩ := hkept.mem_of_newest? hnewest
    refine ⟨rfl, fun more => ?_⟩
    have hlater := after_kept options (entries ++ more)
    have hmem' := signatures_after_append options entries more signature hmem
    obtain ⟨later, hfound, hmemLater, hname⟩ := hlater.exists_signatureOf hmem'
    obtain ⟨-, hreturn, hparams⟩ := Signature.sameTypes_iff.mp (hlater.agree later hmemLater signature hmem' hname)
    exact ⟨later, hfound, hreturn, hparams⟩
  · intro program σ τ e hrun
    have honly := program.enterSignatures_onlyTables σ
    simp only [hrun] at honly
    refine ⟨Program.compile_of_enterSignatures_error hrun, ?_⟩
    rw [honly]
    exact ⟨rfl, rfl, rfl, rfl⟩

end Ledger

end ArmBackend
