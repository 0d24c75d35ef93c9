import ArmBackend.Session
import Mathlib.Algebra.GroupWithZero.Nat

/-!
# The largest frame

The statistics keep the largest frame with the function that has it. The name of that function tells
whether there is one yet, so that a record without a name gives way to the next one, whatever its size.
-/

namespace ArmBackend

structure Finished where
  name : String
  frame : Frame
  size : Nat

def Session.recordFunctions (functions : List Finished) (session : Session) : Session :=
  functions.foldl (fun session function => session.recordFunction function.name function.frame function.size)
    session

namespace Stats

variable {stats : Stats} {bound : Nat} {function : Finished} {functions : List Finished}

def record (stats : Stats) (function : Finished) : Stats :=
  stats.recordFunction function.name function.frame.spills function.size

/-! ## One record -/

theorem record_replaces (h : stats.largestFunction = "" ∨ stats.largestFrame < function.size) :
    (stats.record function).largestFrame = function.size ∧
      (stats.record function).largestFunction = function.name := by
  have hreplaces : (stats.largestFunction.isEmpty || stats.largestFrame < function.size) = true := by
    simpa using h
  rw [record, recordFunction, if_pos hreplaces]
  exact ⟨rfl, rfl⟩

theorem record_keeps (hname : stats.largestFunction ≠ "") (hle : function.size ≤ stats.largestFrame) :
    (stats.record function).largestFrame = stats.largestFrame ∧
      (stats.record function).largestFunction = stats.largestFunction := by
  have hkeeps : ¬ (stats.largestFunction.isEmpty || stats.largestFrame < function.size) = true := by
    simpa using ⟨hname, hle⟩
  rw [record, recordFunction, if_neg hkeeps]
  exact ⟨rfl, rfl⟩

theorem record_counts (stats : Stats) (function : Finished) :
    (stats.record function).functions = stats.functions + 1 ∧
      (stats.record function).spills = stats.spills + function.frame.spills := by
  simp only [record, recordFunction]
  split <;> exact ⟨rfl, rfl⟩

/-- The largest frame has the size `bound` and a name. No record up to that size replaces it. -/
structure Settled (bound : Nat) (stats : Stats) : Prop where
  size : stats.largestFrame = bound
  name : stats.largestFunction ≠ ""

theorem record_settled_iff (hle : stats.largestFrame ≤ bound) (hsize : function.size ≤ bound) :
    (stats.record function).Settled bound ↔
      stats.Settled bound ∨ function.size = bound ∧ function.name ≠ "" := by
  by_cases hreplaces : stats.largestFunction = "" ∨ stats.largestFrame < function.size
  · obtain ⟨hframe, hfunction⟩ := record_replaces hreplaces
    have hopen : ¬ stats.Settled bound := by
      rintro ⟨rfl, hname⟩
      exact hreplaces.elim hname (Nat.not_lt_of_le hsize)
    constructor
    · rintro ⟨hbound, hname⟩
      exact Or.inr ⟨hframe ▸ hbound, hfunction ▸ hname⟩
    · rintro (hsettled | ⟨hbound, hname⟩)
      · exact absurd hsettled hopen
      · exact ⟨hframe.trans hbound, hfunction ▸ hname⟩
  · obtain ⟨hname, hlt⟩ := not_or.mp hreplaces
    obtain ⟨hframe, hfunction⟩ := record_keeps hname (Nat.le_of_not_lt hlt)
    constructor
    · rintro ⟨hbound, -⟩
      exact Or.inl ⟨hframe ▸ hbound, hname⟩
    · rintro (⟨hbound, -⟩ | ⟨hbound, -⟩)
      · exact ⟨hframe.trans hbound, hfunction ▸ hname⟩
      · exact ⟨by omega, hfunction ▸ hname⟩

theorem record_le (hle : stats.largestFrame ≤ bound) (hsize : function.size ≤ bound) :
    (stats.record function).largestFrame ≤ bound := by
  by_cases hreplaces : stats.largestFunction = "" ∨ stats.largestFrame < function.size
  · exact (record_replaces hreplaces).1 ▸ hsize
  · obtain ⟨hname, hlt⟩ := not_or.mp hreplaces
    exact (record_keeps hname (Nat.le_of_not_lt hlt)).1 ▸ hle

/-! ## A sequence of records -/

theorem foldl_record_counts (stats : Stats) (functions : List Finished) :
    (functions.foldl record stats).functions = stats.functions + functions.length ∧
      (functions.foldl record stats).spills =
        stats.spills + (functions.map (·.frame.spills)).sum := by
  induction functions generalizing stats with
  | nil => exact ⟨rfl, rfl⟩
  | cons function functions ih =>
    obtain ⟨hcount, hspills⟩ := ih (stats.record function)
    obtain ⟨hone, hadded⟩ := record_counts stats function
    rw [List.foldl_cons, hcount, hspills, hone, hadded, List.length_cons, List.map_cons, List.sum_cons]
    omega

theorem foldl_record_le (hle : stats.largestFrame ≤ bound) (hsizes : ∀ r ∈ functions, r.size ≤ bound) :
    (functions.foldl record stats).largestFrame ≤ bound := by
  induction functions generalizing stats with
  | nil => exact hle
  | cons function functions ih =>
    obtain ⟨hsize, hrest⟩ := List.forall_mem_cons.mp hsizes
    exact ih (record_le hle hsize) hrest

/-- Among records up to a size, one of that size with a name is what settles the largest frame. -/
theorem foldl_record_settled_iff (hle : stats.largestFrame ≤ bound)
    (hsizes : ∀ r ∈ functions, r.size ≤ bound) :
    (functions.foldl record stats).Settled bound ↔
      stats.Settled bound ∨ ∃ r ∈ functions, r.size = bound ∧ r.name ≠ "" := by
  induction functions generalizing stats with
  | nil => simp
  | cons function functions ih =>
    obtain ⟨hsize, hrest⟩ := List.forall_mem_cons.mp hsizes
    rw [List.foldl_cons, ih (record_le hle hsize) hrest, record_settled_iff hle hsize, or_assoc]
    simp only [List.mem_cons, exists_eq_or_imp]

theorem Settled.foldl_record (h : stats.Settled bound) (hsizes : ∀ r ∈ functions, r.size ≤ bound) :
    (functions.foldl record stats).largestFrame = stats.largestFrame ∧
      (functions.foldl record stats).largestFunction = stats.largestFunction := by
  induction functions generalizing stats with
  | nil => exact ⟨rfl, rfl⟩
  | cons function functions ih =>
    obtain ⟨hsize, hrest⟩ := List.forall_mem_cons.mp hsizes
    obtain ⟨hframe, hfunction⟩ := record_keeps h.name (h.size ▸ hsize)
    have hsettled : (stats.record function).Settled bound :=
      ⟨hframe.trans h.size, hfunction ▸ h.name⟩
    exact hframe ▸ hfunction ▸ ih hsettled hrest

theorem record_of_not_settled (hle : stats.largestFrame ≤ bound) (hopen : ¬ stats.Settled bound)
    (hsize : function.size = bound) :
    (stats.record function).largestFrame = function.size ∧
      (stats.record function).largestFunction = function.name := by
  refine record_replaces ?_
  by_cases hname : stats.largestFunction = ""
  · exact Or.inl hname
  · have hne : stats.largestFrame ≠ bound := fun h => hopen ⟨h, hname⟩
    exact Or.inr (by omega)

theorem foldl_record_nameless_iff (hle : stats.largestFrame ≤ bound) (hopen : ¬ stats.Settled bound)
    (hsizes : ∀ r ∈ functions, r.size ≤ bound) (hne : functions ≠ []) :
    ((functions.foldl record stats).largestFrame = bound ∧
        (functions.foldl record stats).largestFunction = "") ↔
      (∀ r ∈ functions, r.size = bound → r.name = "") ∧ (functions.getLast hne).size = bound := by
  obtain ⟨init, last, rfl⟩ : ∃ init last, functions = init ++ [last] :=
    ⟨_, _, (List.dropLast_concat_getLast hne).symm⟩
  obtain ⟨hinit, hlast⟩ := List.forall_mem_append.mp hsizes
  have hbefore := foldl_record_le hle hinit
  have hsettled := foldl_record_settled_iff hle hinit
  rw [List.foldl_append, List.foldl_cons, List.foldl_nil, List.forall_mem_append,
    List.forall_mem_singleton, List.getLast_concat]
  by_cases hnamed : ∃ r ∈ init, r.size = bound ∧ r.name ≠ ""
  · -- A named record of that size keeps the last one out.
    have hkept := hsettled.mpr (Or.inr hnamed)
    obtain ⟨-, hfunction⟩ := record_keeps hkept.name (hkept.size ▸ List.forall_mem_singleton.mp hlast)
    obtain ⟨r, hr, hsize, hname⟩ := hnamed
    exact ⟨fun h => absurd (hfunction.symm.trans h.2) hkept.name,
      fun h => absurd (h.1.1 r hr hsize) hname⟩
  · have hstill : ¬ (init.foldl record stats).Settled bound := fun h => (hsettled.mp h).elim hopen hnamed
    have hnameless : ∀ r ∈ init, r.size = bound → r.name = "" := fun r hr hsize =>
      Decidable.not_not.mp fun hname => hnamed ⟨r, hr, hsize, hname⟩
    by_cases hsize : last.size = bound
    · obtain ⟨hframe, hfunction⟩ := record_of_not_settled hbefore hstill hsize
      rw [hframe, hfunction]
      exact ⟨fun h => ⟨⟨hnameless, fun _ => h.2⟩, h.1⟩, fun h => ⟨hsize, h.1.2 hsize⟩⟩
    · refine ⟨fun ⟨hframe, hname⟩ => ?_, fun h => absurd h.2 hsize⟩
      -- Neither the last record nor what was there before it is a nameless one of that size.
      by_cases hreplaces : (init.foldl record stats).largestFunction = "" ∨
          (init.foldl record stats).largestFrame < last.size
      · exact absurd ((record_replaces hreplaces).1.symm.trans hframe) hsize
      · obtain ⟨hprevious, hlt⟩ := not_or.mp hreplaces
        exact absurd ((record_keeps hprevious (Nat.le_of_not_lt hlt)).2.symm.trans hname) hprevious

end Stats

/-! ## The first of the largest -/

namespace Session

variable {functions : List Finished}

theorem recordFunctions_stats (functions : List Finished) (σ : Session) :
    (σ.recordFunctions functions).stats = functions.foldl Stats.record σ.stats := by
  induction functions generalizing σ with
  | nil => rfl
  | cons function functions ih => exact ih _

theorem exists_first_largest (hne : functions ≠ []) :
    ∃ before largest after, functions = before ++ largest :: after ∧
      (∀ r ∈ before, r.size < largest.size) ∧ ∀ r ∈ after, r.size ≤ largest.size := by
  induction functions with
  | nil => exact absurd rfl hne
  | cons function functions ih =>
    by_cases hnil : functions = []
    · subst hnil
      exact ⟨[], function, [], rfl, List.forall_mem_nil _, List.forall_mem_nil _⟩
    · obtain ⟨before, largest, after, heq, hbefore, hafter⟩ := ih hnil
      by_cases hlt : function.size < largest.size
      · exact ⟨function :: before, largest, after, by rw [heq, List.cons_append],
          List.forall_mem_cons.mpr ⟨hlt, hbefore⟩, hafter⟩
      · have hle := Nat.le_of_not_lt hlt
        refine ⟨[], function, functions, rfl, List.forall_mem_nil _, fun r hr => ?_⟩
        rw [heq, List.mem_append, List.mem_cons] at hr
        rcases hr with hr | rfl | hr
        · exact Nat.le_trans (Nat.le_of_lt (hbefore r hr)) hle
        · exact hle
        · exact Nat.le_trans (hafter r hr) hle

/-- The statistics count the functions and add up their spills. They have the first of the largest frames just
if its function has a name, or if no function with a frame of that size has one and the last is one of
them. -/
theorem recordFunctions_largest_iff (options : Options) (functions : List Finished) (hne : functions ≠ []) :
    ((start options).recordFunctions functions).stats.functions = functions.length ∧
    ((start options).recordFunctions functions).stats.spills = (functions.map (·.frame.spills)).sum ∧
    ∃ before largest after, functions = before ++ largest :: after ∧
      (∀ r ∈ before, r.size < largest.size) ∧ (∀ r ∈ after, r.size ≤ largest.size) ∧
      (((start options).recordFunctions functions).stats.largestFrame = largest.size ∧
          ((start options).recordFunctions functions).stats.largestFunction = largest.name ↔
        largest.name ≠ "" ∨
          (∀ r ∈ functions, r.size = largest.size → r.name = "") ∧
            (functions.getLast hne).size = largest.size) := by
  have hopen : ∀ {bound}, ¬ (start options).stats.Settled bound := fun h => h.name rfl
  obtain ⟨hcount, hspills⟩ := Stats.foldl_record_counts (start options).stats functions
  obtain ⟨before, largest, after, heq, hbefore, hafter⟩ := exists_first_largest hne
  have hbefore_le : ∀ r ∈ before, r.size ≤ largest.size := fun r hr => Nat.le_of_lt (hbefore r hr)
  rw [recordFunctions_stats]
  refine ⟨hcount.trans (Nat.zero_add _), hspills.trans (Nat.zero_add _),
    before, largest, after, heq, hbefore, hafter, ?_⟩
  by_cases hname : largest.name = ""
  · have hsizes : ∀ r ∈ functions, r.size ≤ largest.size := by
      rw [heq]
      exact List.forall_mem_append.mpr ⟨hbefore_le, List.forall_mem_cons.mpr ⟨Nat.le_refl _, hafter⟩⟩
    rw [hname, Stats.foldl_record_nameless_iff (Nat.zero_le _) hopen hsizes hne]
    exact (or_iff_right fun h => h rfl).symm
  · refine iff_of_true ?_ (Or.inl hname)
    -- Up to the first of the largest, nothing of its size has been recorded.
    have hstill : ¬ (before.foldl Stats.record (start options).stats).Settled largest.size := fun h => by
      rcases (Stats.foldl_record_settled_iff (Nat.zero_le _) hbefore_le).mp h with h | ⟨r, hr, hsize, -⟩
      · exact hopen h
      · exact absurd hsize (Nat.ne_of_lt (hbefore r hr))
    obtain ⟨hframe, hfunction⟩ := Stats.record_of_not_settled
      (Stats.foldl_record_le (Nat.zero_le _) hbefore_le) hstill rfl
    have hsettled : ((before.foldl Stats.record (start options).stats).record largest).Settled largest.size :=
      ⟨hframe, hfunction ▸ hname⟩
    obtain ⟨hframe', hfunction'⟩ := hsettled.foldl_record hafter
    rw [heq, List.foldl_append, List.foldl_cons]
    exact ⟨hframe'.trans hframe, hfunction'.trans hfunction⟩

/-- Two of four functions have the largest frame. The statistics have one of them with its name. -/
theorem recordFunctions_largest_of_tie :
    let functions : List Finished := [⟨"f", {}, 16⟩, ⟨"g", {}, 48⟩, ⟨"h", {}, 48⟩, ⟨"i", {}, 0⟩]
    let stats := ((start {}).recordFunctions functions).stats
    functions ≠ [] ∧ stats.functions = 4 ∧
      ∃ largest ∈ functions, stats.largestFrame = largest.size ∧ stats.largestFunction = largest.name := by
  intro functions stats
  have hne : functions ≠ [] := List.cons_ne_nil _ _
  obtain ⟨hcount, -, before, largest, after, heq, -, -, hiff⟩ := recordFunctions_largest_iff {} functions hne
  have hmem : largest ∈ functions := heq ▸ List.mem_append_right _ List.mem_cons_self
  have hnamed : ∀ r ∈ functions, r.name ≠ "" := by decide
  exact ⟨hne, hcount, largest, hmem, hiff.mpr (Or.inl (hnamed largest hmem))⟩

/-- A frame of 100 bytes is forgotten because its function has no name. -/
theorem recordFunctions_forgets_nameless :
    let stats := ((start {}).recordFunctions [⟨"", {}, 100⟩, ⟨"f", {}, 5⟩]).stats
    stats.largestFrame = 5 ∧ stats.largestFunction = "f" := by
  decide

end Session

end ArmBackend
