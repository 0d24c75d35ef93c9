import ArmBackend.Proofs.Frame.History

/-!
# Names and their storage

A name stands for a variable that is live until the variable is released. The release leaves the
binding, and from then on the name stands for storage that may be handed out again.
-/

namespace ArmBackend.Frame

variable {f : Frame} {name : String} {slot : Slot} {ops : List Op}

/-- The slot that the name stands for is that of a live variable, and it has no byte in common with
other live storage. -/
def Owns (f : Frame) (name : String) : Prop :=
  ∀ slot, f.symbols.lookup name = some slot →
    slot ∈ f.locals ∧ ∀ other ∈ f.slots.erase slot, ∀ distance,
      ¬(slot.Holds distance ∧ other.Holds distance)

/-- The newest variable can be released, and the name stands for it. -/
def Strands (f : Frame) (name : String) : Prop :=
  f.temporaries = [] ∧ ∃ slot, f.locals.head? = some slot ∧ f.symbols.lookup name = some slot

/-! ## Live slots -/

theorem Consistent.apart_erase (hf : f.Consistent) (hslot : slot ∈ f.slots) :
    ∀ other ∈ f.slots.erase slot, ∀ distance, ¬(slot.Holds distance ∧ other.Holds distance) := by
  have hperm := List.perm_cons_erase hslot
  have hapart := hperm.pairwise hf.apart fun {a b} h distance hboth => h distance hboth.symm
  exact (List.pairwise_cons.mp hapart).1

theorem Orderly.owns_iff (hf : f.Orderly) :
    f.Owns name ↔ ∀ slot, f.symbols.lookup name = some slot → slot ∈ f.locals :=
  ⟨fun h slot hlookup => (h slot hlookup).1, fun h slot hlookup =>
    ⟨h slot hlookup, hf.consistent.apart_erase (mem_slots_of_local (h slot hlookup))⟩⟩

theorem Valid.notMem_locals {locals : List Slot} (hf : f.Valid) (hlocals : f.locals = slot :: locals) :
    slot ∉ locals := by
  intro hmem
  have hslot : slot ∈ f.slots := mem_slots_of_local (hlocals ▸ List.mem_cons_self)
  have hpos := (hf.stacked.bounds slot hslot).1
  have hpairwise := (List.pairwise_append.mp hf.stacked.pairwise).2.1
  rw [hlocals] at hpairwise
  have := (List.pairwise_cons.mp hpairwise).1 slot hmem
  omega

/-! ## What an operation does to names -/

inductive Binding (f g : Frame) : Op → Prop
  | keep (op : Op) (locals : f.locals <:+ g.locals) (symbols : g.symbols = f.symbols) : Binding f g op
  | bind (ty : Ty) (name : String) (slot : Slot) (locals : g.locals = slot :: f.locals)
      (symbols : g.symbols = (name, slot) :: f.symbols) : Binding f g (.addVariable ty name)
  | release (slot : Slot) (quiet : f.temporaries = []) (locals : f.locals = slot :: g.locals)
      (symbols : g.symbols = f.symbols) : Binding f g .releaseVariable

theorem Binding.unchanged (op : Op) : Binding f f op := .keep op List.suffix_rfl rfl

theorem Valid.binding (hf : f.Valid) (op : Op) : Binding f (op.apply f) op := by
  cases op with
  | addVariable ty name =>
    rw [Op.apply]
    rcases hrun : (Frame.addVariable ty name).run f with ⟨e | slot, g⟩
    · cases addVariable_error hrun
      exact .unchanged _
    · obtain ⟨-, -, -, rfl⟩ := addVariable_ok hrun
      exact .bind ty name slot rfl rfl
  | reserveVariable ty =>
    rw [Op.apply]
    rcases hrun : (Frame.reserveVariable ty).run f with ⟨e | slot, g⟩
    · cases reserveVariable_error hrun
      exact .unchanged _
    · obtain ⟨-, -, -, rfl⟩ := reserveVariable_ok hrun
      exact .keep _ (List.suffix_cons _ _) rfl
  | releaseVariable =>
    rw [Op.apply]
    rcases hrun : Frame.releaseVariable.run f with ⟨e | ⟨⟩, g⟩
    · obtain ⟨-, rfl⟩ := hf.releaseVariable_fault hrun
      exact .unchanged _
    · obtain ⟨hquiet, slot, _, _, _, hlocals, -, rfl⟩ := releaseVariable_ok hrun
      exact .release slot hquiet hlocals rfl
  | reserveTemp ty =>
    rw [Op.apply]
    rcases hrun : (Frame.reserveTemp ty).run f with ⟨e | res, g⟩
    · cases reserveTemp_error hrun
      exact .unchanged _
    · obtain ⟨-, ⟨_, -, -, -, rfl⟩ | ⟨-, rfl⟩⟩ := reserveTemp_ok hrun <;>
        exact .keep _ List.suffix_rfl rfl
  | releaseTemp =>
    rw [Op.apply]
    rcases hrun : Frame.releaseTemp.run f with ⟨e | ⟨⟩, g⟩
    · obtain ⟨-, -, rfl⟩ := hf.releaseTemp_fault hrun
      exact .unchanged _
    · obtain ⟨_, _, -, ⟨_, -, rfl⟩ | ⟨_, _, -, -, rfl⟩⟩ := releaseTemp_ok hrun <;>
        exact .keep _ List.suffix_rfl rfl
  | pushLoop id => exact .keep _ List.suffix_rfl rfl
  | popLoop => exact .keep _ List.suffix_rfl rfl

theorem Orderly.owns_apply (hf : f.Orderly) (howns : f.Owns name) (op : Op)
    (hstrands : op = .releaseVariable → ¬ f.Strands name) : (op.apply f).Owns name := by
  rw [hf.owns_iff] at howns
  rw [(hf.apply op).owns_iff]
  intro slot hlookup
  cases hf.toValid.binding op with
  | keep _ hlocals hsymbols =>
    rw [hsymbols] at hlookup
    exact hlocals.subset (howns slot hlookup)
  | bind ty other new hlocals hsymbols =>
    rw [hlocals]
    rw [hsymbols, List.lookup_cons] at hlookup
    split at hlookup
    · cases hlookup
      exact List.mem_cons_self
    · exact List.mem_cons_of_mem _ (howns slot hlookup)
  | release newest hquiet hlocals hsymbols =>
    rw [hsymbols] at hlookup
    rcases List.mem_cons.mp (hlocals ▸ howns slot hlookup) with rfl | hmem
    · exact absurd ⟨hquiet, slot, by rw [hlocals, List.head?_cons], hlookup⟩ (hstrands rfl)
    · exact hmem

theorem Orderly.not_owns_release (hf : f.Orderly) (hstrands : f.Strands name) :
    ¬ (Op.apply f .releaseVariable).Owns name := by
  obtain ⟨hquiet, slot, hhead, hlookup⟩ := hstrands
  have hne : f.locals ≠ [] := fun hnil => by simp [hnil] at hhead
  obtain ⟨⟨⟩, g, hrun⟩ := hf.toValid.releaseVariable_succeeds hquiet hne
  obtain ⟨-, newest, _, locals, _, hlocals, -, hg⟩ := releaseVariable_ok hrun
  have hg' : Op.apply f .releaseVariable = g := by rw [Op.apply, hrun]
  rw [hlocals, List.head?_cons, Option.some.injEq] at hhead
  subst hhead hg
  intro howns
  rw [(hf.apply .releaseVariable).owns_iff, hg'] at howns
  exact hf.toValid.notMem_locals hlocals (howns newest hlookup)

/-! ## What a name resolves to -/

theorem resolve_run (f : Frame) (name : String) :
    (resolve name).run f =
      ((f.symbols.lookup name).elim (.error (.undefinedVariable name)) .ok, f) := by
  simp only [resolve, StepM.run_bind, StepM.run_get]
  cases f.symbols.lookup name <;> rfl

theorem Valid.resolve_apply (hf : f.Valid) {op : Op} (hop : ∀ ty, op ≠ .addVariable ty name) :
    ((resolve name).run (op.apply f)).1 = ((resolve name).run f).1 := by
  rw [resolve_run, resolve_run]
  cases hf.binding op with
  | keep _ _ hsymbols => rw [hsymbols]
  | bind ty other _ _ hsymbols =>
    have hne : (name == other) = false := beq_false_of_ne fun heq => hop ty (heq ▸ rfl)
    rw [hsymbols, List.lookup_cons, hne]
  | release _ _ _ hsymbols => rw [hsymbols]

/-- A name stands for a live variable at all times exactly if no release takes the variable that it
stands for. A release that takes it does not change what the name resolves to, nor does any other
operation but a new binding of the name. -/
theorem owns_iff_not_strands (ops : List Op) (name : String) :
    ((∀ earlier, earlier <+: ops → (after earlier).Owns name) ↔
      ∀ earlier, earlier ++ [.releaseVariable] <+: ops → ¬ (after earlier).Strands name) ∧
    ∀ op, (∀ ty, op ≠ .addVariable ty name) →
      ((resolve name).run (after (ops ++ [op]))).1 = ((resolve name).run (after ops)).1 := by
  refine ⟨⟨fun h earlier hearlier hstrands => ?_, fun h => ?_⟩, fun op hop => ?_⟩
  · have howns := h _ hearlier
    rw [after_concat] at howns
    exact (orderly_after earlier).not_owns_release hstrands howns
  · induction ops using List.reverseRecOn with
    | nil =>
      intro earlier hearlier
      rw [List.prefix_nil.mp hearlier]
      exact nofun
    | append_singleton ops op ih =>
      have howns := ih fun earlier hearlier => h earlier (hearlier.trans (List.prefix_append _ _))
      intro earlier hearlier
      rcases List.prefix_concat_iff.mp hearlier with rfl | hearlier
      · rw [after_concat]
        refine (orderly_after ops).owns_apply (howns ops List.prefix_rfl) op fun hop => ?_
        exact h ops (hop ▸ List.prefix_rfl)
      · exact howns earlier hearlier
  · rw [after_concat]
    exact (orderly_after ops).toValid.resolve_apply hop

/-- After `int x` is released, x still resolves to its slot, and the ninth temporary is in it. -/
theorem released_name_shares :
    let f := after ([.addVariable .int "x", .releaseVariable] ++ List.replicate 9 (.reserveTemp .int))
    ((resolve "x").run f).1 = .ok ⟨8, .int⟩ ∧ f.locals = [] ∧
      f.temporaries.head? = some (Slot.reservation ⟨8, .int⟩) ∧ ¬ f.Owns "x" := by
  intro f
  have hlookup : f.symbols.lookup "x" = some ⟨8, .int⟩ := by decide +kernel
  have hlocals : f.locals = [] := by decide +kernel
  refine ⟨by rw [resolve_run, hlookup]; rfl, hlocals, by decide +kernel, fun howns => ?_⟩
  have hmem := (howns _ hlookup).1
  rw [hlocals] at hmem
  exact List.not_mem_nil hmem

end ArmBackend.Frame
