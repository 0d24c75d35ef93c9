import ArmBackend.Proofs.Machine.Straight

/-!
# Running code

Runs of code without labels. Calls and traps leave the code and come back in a state that is not up to
it. A run lists them, with the states in which they leave and come back.
-/

namespace ArmBackend

/-! ## Code on its own -/

namespace Code

def exec (symbol : Label → Word) : Code → State → Option State
  | [], s => some s
  | .instr instr :: code, s => (instr.exec symbol s).bind (exec symbol code)
  | .label _ :: _, _ | .directive _ :: _, _ => none

/-- A world in which no call and no trap returns. -/
def alone (symbol : Label → Word) : World where
  symbol
  call _ _ _ := False
  trap _ _ := False
  call_mono _ := id
  trap_mono _ := id

theorem exec_append (symbol : Label → Word) (a b : Code) (s : State) :
    (a ++ b).exec symbol s = (a.exec symbol s).bind (b.exec symbol) := by
  induction a generalizing s with
  | nil => rfl
  | cons line a ih =>
    cases line with
    | label label => rfl
    | directive directive => rfl
    | instr instr =>
      simp only [List.cons_append, exec, Option.bind_assoc]
      exact congrArg _ (funext ih)

theorem exec_of_ensures {symbol : Label → Word} {code : Code} {s : State} {Q : State → Prop}
    (h : Ensures (alone symbol) code s Q) : ∃ t, code.exec symbol s = some t ∧ Q t := by
  induction code generalizing s with
  | nil => exact ⟨s, rfl, h⟩
  | cons line code ih =>
    cases line with
    | label label => exact h.elim
    | directive directive => exact h.elim
    | instr instr =>
      have hstep : ∃ u, instr.exec symbol s = some u ∧ Ensures (alone symbol) code u Q := by
        cases instr <;> first | exact h | exact h.elim
      obtain ⟨u, hu, hrest⟩ := hstep
      obtain ⟨t, ht, hQ⟩ := ih hrest
      exact ⟨t, by rw [exec, hu, Option.bind_some, ht], hQ⟩

end Code

/-! ## Leaving the code -/

inductive Gate where
  | call (label : Label)
  | trap
deriving DecidableEq

def Instr.gate? : Instr → Option Gate
  | .bl label => some (.call label)
  | .svc _ => some .trap
  | _ => none

structure Visit where
  gate : Gate
  before : State
  after : State

/-- What surrounds code whose branches are listed. -/
structure Host where
  /-- The addresses of static data. -/
  symbol : Label → Word
  /-- The state in which a branch returns, which may depend on all the earlier ones. -/
  reply : List Visit → Gate → State → State

namespace Code

/-- Runs lines one after the other and lists the branches out of them. `past` are the earlier ones. -/
def trace (host : Host) : Code → List Visit → State → Option (List Visit × State)
  | [], _, s => some ([], s)
  | .instr instr :: code, past, s =>
    match instr.gate? with
    | some gate =>
      let visit : Visit := ⟨gate, s, host.reply past gate s⟩
      (trace host code (past ++ [visit]) visit.after).map fun (visits, t) => (visit :: visits, t)
    | none => (instr.exec host.symbol s).bind (trace host code past)
  | .label _ :: _, _, _ | .directive _ :: _, _, _ => none

variable {host : Host} {past : List Visit} {s t : State}

theorem trace_append (a b : Code) (past : List Visit) (s : State) :
    (a ++ b).trace host past s = (a.trace host past s).bind fun (visits, t) =>
      (b.trace host (past ++ visits) t).map fun (visits', u) => (visits ++ visits', u) := by
  induction a generalizing past s with
  | nil => simp [trace]
  | cons line a ih =>
    cases line with
    | label label => rfl
    | directive directive => rfl
    | instr instr =>
      simp only [List.cons_append, trace]
      cases instr.gate? with
      | none =>
        cases instr.exec host.symbol s with
        | none => rfl
        | some u => exact ih past u
      | some gate =>
        simp only [ih]
        cases trace host a (past ++ [⟨gate, s, host.reply past gate s⟩]) (host.reply past gate s) with
        | none => rfl
        | some out => simp [Function.comp_def]

theorem trace_of_exec {code : Code} (h : code.exec host.symbol s = some t) :
    code.trace host past s = some ([], t) := by
  induction code generalizing s with
  | nil =>
    cases h
    rfl
  | cons line code ih =>
    cases line with
    | label label => cases h
    | directive directive => cases h
    | instr instr =>
      obtain ⟨u, hu, hrest⟩ := Option.bind_eq_some_iff.mp h
      have hgate : instr.gate? = none := by cases instr <;> first | rfl | cases hu
      simp only [trace, hgate, hu, Option.bind_some, ih hrest]

def Traces (host : Host) (code : Code) (past : List Visit) (s : State)
    (Q : List Visit → State → Prop) : Prop :=
  ∃ visits t, code.trace host past s = some (visits, t) ∧ Q visits t

variable {P Q : List Visit → State → Prop}

theorem Traces.mono {code : Code} (h : code.Traces host past s P)
    (hPQ : ∀ visits t, P visits t → Q visits t) : code.Traces host past s Q := by
  obtain ⟨visits, t, htrace, hP⟩ := h
  exact ⟨visits, t, htrace, hPQ visits t hP⟩

theorem Traces.append {a b : Code} (h : a.Traces host past s P)
    (hb : ∀ visits t, P visits t →
      b.Traces host (past ++ visits) t fun visits' u => Q (visits ++ visits') u) :
    (a ++ b).Traces host past s Q := by
  obtain ⟨visits, t, htrace, hP⟩ := h
  obtain ⟨visits', u, htrace', hQ⟩ := hb visits t hP
  refine ⟨visits ++ visits', u, ?_, hQ⟩
  rw [trace_append, htrace]
  simp only [Option.bind_some, htrace', Option.map_some]

theorem traces_of_ensures {code : Code} {R : State → Prop}
    (h : Ensures (alone host.symbol) code s R) (hQ : ∀ t, R t → Q [] t) :
    code.Traces host past s Q := by
  obtain ⟨t, ht, hR⟩ := exec_of_ensures h
  exact ⟨[], t, trace_of_exec ht, hQ t hR⟩

theorem traces_append_of_ensures {a b : Code} {R : State → Prop}
    (h : Ensures (alone host.symbol) a s R) (hb : ∀ t, R t → b.Traces host past t Q) :
    (a ++ b).Traces host past s Q := by
  obtain ⟨t, ht, hR⟩ := exec_of_ensures h
  have htrace : a.Traces host past s fun visits u => visits = [] ∧ u = t :=
    ⟨[], t, trace_of_exec ht, rfl, rfl⟩
  refine htrace.append fun visits u ⟨hvisits, hu⟩ => ?_
  subst hvisits hu
  simpa only [List.append_nil, List.nil_append] using hb u hR

theorem traces_branch {instr : Instr} {gate : Gate} (hgate : instr.gate? = some gate)
    (hQ : Q [⟨gate, s, host.reply past gate s⟩] (host.reply past gate s)) :
    (ofInstrs [instr]).Traces host past s Q := by
  refine ⟨_, _, ?_, hQ⟩
  simp only [ofInstrs, List.map_cons, List.map_nil, trace, hgate, Option.map_some]

end Code

/-! ## The calling convention -/

def Gate.Spoils : Gate → Register → Prop
  | .call _, reg => reg.Volatile ∨ reg = .linkRegister
  | .trap, reg => reg = .result

theorem Register.Kept.not_spoils {reg : Register} (h : reg.Kept) (label : Label) :
    ¬ (Gate.call label).Spoils reg := by
  rintro (hvolatile | rfl)
  · exact h.not_volatile hvolatile
  · rcases h with h | ⟨index, h⟩ <;> cases h

/-- The bytes of a function's frame, from its stack pointer to the end of its frame record. -/
def State.Owns (s : State) (a : Word) : Prop :=
  (s.regs .stackPointer).toNat ≤ a.toNat ∧ a.toNat < (s.regs .framePointer).toNat + saveSlotSize

/-- Branches change only the registers that they may, and leave the frame alone. -/
def Host.Conforms (host : Host) : Prop :=
  ∀ past gate s, ChangesOnly gate.Spoils (fun a => ¬ s.Owns a) s (host.reply past gate s)

end ArmBackend
