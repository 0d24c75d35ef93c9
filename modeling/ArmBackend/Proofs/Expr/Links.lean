import ArmBackend.Proofs.Expr.Inversion
import ArmBackend.Proofs.Expr.Shape
import ArmBackend.Proofs.Machine.References

/-!
# What the code of an expression refers to

The code of an expression calls the functions that the expression calls, and addresses texts that have been
interned. The builtins among the callees are recorded.
-/

namespace ArmBackend

open Session (onFrame onFrame_ok newest?)

/-! ## Callees -/

namespace Expr

mutual

/-- The names of the functions that the expression calls. A trap is no call of a function. -/
def callees : Expr → List String
  | .call callee args _ => (if callee = trapCallee then [] else [callee]) ++ allCallees args
  | .deref pointer _ => pointer.callees
  | .binary _ lhs rhs _ => lhs.callees ++ rhs.callees
  | .unary _ operand _ => operand.callees
  | .array elements _ => allCallees elements
  | .literal .. | .var .. | .str .. | .empty _ => []

def allCallees : List Expr → List String
  | [] => []
  | expr :: exprs => expr.callees ++ allCallees exprs

end

theorem allCallees_eq_nil {exprs : List Expr} (h : ∀ expr ∈ exprs, expr.callees = []) :
    allCallees exprs = [] := by
  induction exprs with
  | nil => rfl
  | cons expr exprs ih =>
    obtain ⟨hexpr, hexprs⟩ := List.forall_mem_cons.mp h
    rw [allCallees, hexpr, ih hexprs, List.append_nil]

theorem callees_eq_nil {expr : Expr} (h : expr.containsCalls = false) : expr.callees = [] := by
  induction expr using Expr.induct with
  | literal | var | str | empty => rfl
  | deref pointer ty ih => exact ih h
  | call callee args ty ih => cases h
  | binary op lhs rhs ty ihl ihr =>
    obtain ⟨hl, hr⟩ := Bool.or_eq_false_iff.mp h
    rw [callees, ihl hl, ihr hr, List.append_nil]
  | unary op operand ty ih => exact ih h
  | array elements ty ih =>
    exact allCallees_eq_nil fun element hmem => ih element hmem (anyContainsCalls_eq_false.mp h element hmem)

end Expr

/-! ## Builtins in use -/

namespace Builtin

theorem mem_all (builtin : Builtin) : builtin ∈ all := by
  cases builtin
  exact List.mem_singleton_self _

theorem ofName?_eq_some {name : String} {builtin : Builtin} :
    ofName? name = some builtin ↔ builtin.name = name := by
  constructor
  · intro h
    simpa using List.find?_some h
  · rintro rfl
    cases builtin
    rfl

end Builtin

namespace Session

theorem mem_markUsed {name : String} {session : Session} {builtin : Builtin} :
    builtin ∈ (markUsed name session).usedBuiltins ↔
      builtin ∈ session.usedBuiltins ∨ builtin.name = name ∧ session.isDefined builtin.name = false := by
  rw [← Builtin.ofName?_eq_some, markUsed]
  split
  case h_1 other hother =>
    obtain rfl := Builtin.ofName?_eq_some.mp hother
    rw [hother]
    split
    case isTrue hdefined =>
      refine (or_iff_left ?_).symm
      rintro ⟨heq, hnot⟩
      cases heq
      exact absurd hdefined (hnot ▸ Bool.false_ne_true)
    case isFalse hdefined =>
      rw [List.mem_insert_iff, or_comm]
      refine or_congr_right ⟨?_, fun h => (Option.some.inj h.1).symm⟩
      rintro rfl
      exact ⟨rfl, Bool.not_eq_true _ ▸ hdefined⟩
  case h_2 hnone => simp [hnone]

theorem mem_neededBuiltins {session : Session} {builtin : Builtin} :
    builtin ∈ session.neededBuiltins ↔ builtin ∈ session.usedBuiltins := by
  simp only [neededBuiltins, List.mem_filter, builtin.mem_all, true_and, List.contains_iff_mem]

/-! ## Lowering with references -/

/-- Lowering from `σ` to `τ` makes code with the references `refs`, which calls exactly `callees`. Branches
are not its concern. -/
structure Links (callees : List String) (refs : List Reference) (σ τ : Session) : Prop where
  options : τ.options = σ.options
  declared : τ.declared = σ.declared
  defined : τ.defined = σ.defined
  texts : σ.data.texts <+: τ.data.texts
  used : ∀ builtin, builtin ∈ τ.usedBuiltins ↔
    builtin ∈ σ.usedBuiltins ∨ builtin.name ∈ callees ∧ σ.isDefined builtin.name = false
  known : ∀ name ∈ callees, ((newest? σ.declared name).or (newest? σ.defined name)).isSome = true
  calls : ∀ label, .call label ∈ refs ↔ ∃ name ∈ callees, label = σ.options.functionLabel name
  data : ∀ label, .datum label ∈ refs → ∃ id < τ.data.texts.length, label = .datum .string id

namespace Links

variable {callees callees' : List String} {refs refs' : List Reference} {σ τ υ : Session}

theorem isDefined_eq (h : Links callees refs σ τ) (name : String) : τ.isDefined name = σ.isDefined name := by
  rw [isDefined, h.defined, isDefined]

theorem quiet (hoptions : τ.options = σ.options) (hdeclared : τ.declared = σ.declared)
    (hdefined : τ.defined = σ.defined) (hdata : τ.data = σ.data)
    (hused : τ.usedBuiltins = σ.usedBuiltins) : Links [] [] σ τ where
  options := hoptions
  declared := hdeclared
  defined := hdefined
  texts := hdata ▸ List.prefix_rfl
  used builtin := by simp [hused]
  known := nofun
  calls label := by simp
  data := nofun

theorem refl (σ : Session) : Links [] [] σ σ := quiet rfl rfl rfl rfl rfl

theorem onFrame {α : Type} {operation : FrameM α} {a : α}
    (h : (Session.onFrame operation).run σ = (.ok a, τ)) : Links [] [] σ τ := by
  obtain ⟨-, _, _, _, -, -, rfl⟩ := onFrame_ok h
  exact quiet rfl rfl rfl rfl rfl

theorem branch (σ : Session) (label : Label) : Links [] [.branch label] σ σ where
  options := rfl
  declared := rfl
  defined := rfl
  texts := List.prefix_rfl
  used builtin := by simp
  known := nofun
  calls label := by simp
  data label h := by simp at h

theorem trans (h : Links callees refs σ τ) (h' : Links callees' refs' τ υ) :
    Links (callees ++ callees') (refs ++ refs') σ υ where
  options := h'.options.trans h.options
  declared := h'.declared.trans h.declared
  defined := h'.defined.trans h.defined
  texts := h.texts.trans h'.texts
  used builtin := by
    rw [h'.used, h.used, h.isDefined_eq, or_assoc, ← or_and_right, List.mem_append]
  known := by
    simp only [List.forall_mem_append]
    exact ⟨h.known, fun name hname => by simpa only [h.declared, h.defined] using h'.known name hname⟩
  calls label := by
    rw [List.mem_append, h.calls, h'.calls, h.options]
    simp only [List.mem_append, or_and_right, exists_or]
  data label hmem := by
    rcases List.mem_append.mp hmem with hmem | hmem
    · obtain ⟨id, hid, rfl⟩ := h.data label hmem
      exact ⟨id, Nat.lt_of_lt_of_le hid h'.texts.length_le, rfl⟩
    · exact h'.data label hmem

theorem call {callee : String}
    (hknown : ((newest? σ.declared callee).or (newest? σ.defined callee)).isSome = true)
    (hargs : Links callees refs (markUsed callee σ) τ) :
    Links (callee :: callees) (refs ++ [.call (σ.options.functionLabel callee)]) σ τ := by
  obtain ⟨usedBuiltins, hmark⟩ := markUsed_eq callee σ
  have hargs' := hargs
  rw [hmark] at hargs'
  exact {
    options := hargs'.options
    declared := hargs'.declared
    defined := hargs'.defined
    texts := hargs'.texts
    used := fun builtin => by
      rw [hargs.used, mem_markUsed, List.mem_cons, or_and_right, or_assoc, hmark]
      rfl
    known := List.forall_mem_cons.mpr ⟨hknown, hargs'.known⟩
    calls := fun label => by
      rw [List.mem_append, hargs'.calls]
      simp [or_comm]
    data := fun label hmem => hargs'.data label (by simpa using hmem) }

theorem intern {text : String} {label : Label}
    (h : (Session.intern text).run σ = (.ok label, τ)) :
    Links [] [.datum label, .datum label] σ τ := by
  have hused : τ.usedBuiltins = σ.usedBuiltins := by
    cases h
    rfl
  obtain ⟨hadvances, id, rfl, hid⟩ := intern_ok h
  have hlt : id < τ.data.texts.length := (List.idxOf?_eq_some_iff.mp hid).1
  exact {
    options := hadvances.options
    declared := hadvances.declared
    defined := hadvances.defined
    texts := hadvances.texts
    used := fun builtin => by simp [hused]
    known := nofun
    calls := fun label => by simp
    data := fun label hmem => ⟨id, hlt, by simpa using hmem⟩ }

end Links

end Session

open Session (Links)

variable {σ τ : Session} {code : Code} {target : Reservation}

def Operand.Links (callees : List String) (operand : Operand) : Prop :=
  ∀ {target σ code τ}, (operand.lower target).run σ = (.ok code, τ) →
    Session.Links callees code.references σ τ

/-! ## Forms of expressions -/

namespace Lower

variable {exprs : List Expr} {regs : List Register}

theorem binary_links {op : BinOp} {ty : Ty} {lhs rhs : Operand} {callees callees' : List String}
    (hlhs : lhs.Links callees) (hrhs : rhs.Links callees')
    (h : (binary op ty target lhs rhs).run σ = (.ok code, τ)) :
    Links (callees ++ callees') code.references σ τ := by
  obtain ⟨left, leftCode, right, rightCode, opCode, σ₁, σ₂, σ₃, σ₄, σ₅, hleft, hleftCode, hright,
    hrightCode, hop, hrelease, hrelease', -, rfl⟩ := binary_ok h
  have hoperands := (((Links.onFrame hleft).trans (hlhs hleftCode)).trans (.onFrame hright)).trans
    (hrhs hrightCode)
  have hall := (hoperands.trans (.onFrame hrelease)).trans (.onFrame hrelease')
  simpa [BinOp.references_code hop] using hall

theorem unary_links {op : UnOp} {operand : Operand} {callees : List String}
    (hoperand : operand.Links callees) (h : (unary op target operand).run σ = (.ok code, τ)) :
    Links callees code.references σ τ := by
  obtain ⟨-, ⟨reg, -, operandCode, opCode, hcode, hop, rfl⟩ |
    ⟨-, res, operandCode, opCode, σ₁, σ₂, hres, hcode, hop, hrelease, rfl⟩⟩ := unary_ok h
  · simpa [UnOp.references_code hop] using hoperand hcode
  · have hall := ((Links.onFrame hres).trans (hoperand hcode)).trans (.onFrame hrelease)
    simpa [UnOp.references_code hop] using hall

theorem addressOf_links {operand : Expr} (h : (addressOf target operand).run σ = (.ok code, τ)) :
    Links operand.callees code.references σ τ := by
  obtain ⟨name, ty, slot, rfl, hslot, haddress⟩ := addressOf_ok h
  obtain ⟨copyCode, hcopy, rfl⟩ := address_ok haddress
  simpa [Expr.callees, Code.references_copy hcopy] using Links.onFrame hslot

theorem string_links {text : String} (h : (string target text).run σ = (.ok code, τ)) :
    Links [] code.references σ τ := by
  obtain ⟨label, hlabel, haddress⟩ := string_ok h
  obtain ⟨copyCode, hcopy, rfl⟩ := address_ok haddress
  simpa [Code.labelAddress, Code.references_copy hcopy, Instr.reference?] using Links.intern hlabel

/-! ### Arrays -/

theorem reserveElements_links {ty : Ty} {count : Nat} {slots slots' : List Slot}
    (h : (reserveElements ty count slots).run σ = (.ok slots', τ)) :
    Links [] [] σ τ := by
  induction count generalizing slots σ with
  | zero =>
    cases h
    exact .refl _
  | succ count ih =>
    obtain ⟨slot, σ₁, hslot, h₁⟩ := StepM.run_bind_eq_ok.mp h
    exact (Links.onFrame hslot).trans (ih h₁)

theorem elements_links {slots : List Slot} (hexprs : ∀ expr ∈ exprs, expr.operand.Links expr.callees)
    (hlength : slots.length = exprs.length)
    (h : (elements slots (exprs.map Expr.operand)).run σ = (.ok code, τ)) :
    Links (Expr.allCallees exprs) code.references σ τ := by
  induction exprs generalizing slots σ code with
  | nil =>
    obtain rfl := List.eq_nil_of_length_eq_zero hlength
    cases h
    exact .refl _
  | cons expr exprs ih =>
    obtain ⟨hexpr, hrest⟩ := List.forall_mem_cons.mp hexprs
    cases slots with
    | nil => cases hlength
    | cons slot slots =>
      obtain ⟨elementCode, σ₁, helement, h₁⟩ := StepM.run_bind_eq_ok.mp h
      obtain ⟨restCode, σ₂, htail, h₂⟩ := StepM.run_bind_eq_ok.mp h₁
      cases h₂
      rw [Code.references_append]
      exact (hexpr helement).trans (ih hrest (Nat.succ.inj hlength) htail)

/-! ### Calls -/

theorem shield_links {shieldCode : Code} {shielded : List (Reservation × Register)}
    (hexprs : ∀ expr ∈ exprs, expr.operand.Links expr.callees) (hlength : exprs.length ≤ regs.length)
    (h : (shield (exprs.map Expr.operand) regs).run σ = (.ok (shieldCode, shielded), τ)) :
    Links (Expr.allCallees exprs) shieldCode.references σ τ := by
  induction exprs generalizing regs shieldCode shielded σ with
  | nil =>
    simp only [List.map_nil, shield] at h
    cases h
    exact .refl _
  | cons expr exprs ih =>
    obtain ⟨hexpr, hrest⟩ := List.forall_mem_cons.mp hexprs
    cases regs with
    | nil => simp at hlength
    | cons reg regs =>
      have hlength' : exprs.length ≤ regs.length := by simpa using hlength
      cases hcalls : expr.containsCalls with
      | true =>
        obtain ⟨res, argCode, restCode, shielded', σ₁, σ₂, hres, hcode, htail, hout⟩ :=
          shield_calls_ok (show expr.operand.calls = true from hcalls) h
        cases hout
        rw [Code.references_append]
        exact ((Links.onFrame hres).trans (hexpr hcode)).trans (ih hrest hlength' htail)
      | false =>
        rw [List.map_cons, shield_quiet _ reg regs (show expr.operand.calls = false from hcalls)] at h
        rw [Expr.allCallees, Expr.callees_eq_nil hcalls]
        exact ih hrest hlength' h

theorem direct_links (hexprs : ∀ expr ∈ exprs, expr.operand.Links expr.callees)
    (h : (direct (exprs.map Expr.operand) regs).run σ = (.ok code, τ)) :
    Links [] code.references σ τ := by
  induction exprs generalizing regs code σ with
  | nil =>
    simp only [List.map_nil, direct] at h
    cases h
    exact .refl _
  | cons expr exprs ih =>
    obtain ⟨hexpr, hrest⟩ := List.forall_mem_cons.mp hexprs
    cases regs with
    | nil =>
      simp only [List.map_cons, direct] at h
      cases h
      exact .refl _
    | cons reg regs =>
      cases hcalls : expr.containsCalls with
      | true =>
        rw [List.map_cons, direct_calls _ reg regs (show expr.operand.calls = true from hcalls)] at h
        exact ih hrest h
      | false =>
        obtain ⟨argCode, restCode, σ₁, hcode, htail, rfl⟩ :=
          direct_quiet_ok (show expr.operand.calls = false from hcalls) h
        have harg := hexpr hcode
        rw [Expr.callees_eq_nil hcalls] at harg
        rw [Code.references_append]
        exact harg.trans (ih hrest htail)

theorem references_unshield {shielded : List (Reservation × Register)}
    (h : unshield shielded = .ok code) : code.references = [] := by
  induction shielded generalizing code with
  | nil =>
    cases h
    rfl
  | cons entry shielded ih =>
    obtain ⟨copyCode, restCode, hcopy, hrest, rfl⟩ := unshield_cons_ok h
    rw [Code.references_append, Code.references_copy hcopy, ih hrest]
    rfl

theorem releaseTemps_links {count : Nat} (h : (releaseTemps count).run σ = (.ok (), τ)) :
    Links [] [] σ τ := by
  induction count generalizing σ with
  | zero =>
    cases h
    exact .refl _
  | succ count ih =>
    obtain ⟨_, σ₁, hrelease, h₁⟩ := StepM.run_bind_eq_ok.mp h
    exact (Links.onFrame hrelease).trans (ih h₁)

theorem arguments_links (hexprs : ∀ expr ∈ exprs, expr.operand.Links expr.callees)
    (hregs : argRegisters exprs.length = .ok regs)
    (h : (arguments (exprs.map Expr.operand) regs).run σ = (.ok code, τ)) :
    Links (Expr.allCallees exprs) code.references σ τ := by
  obtain ⟨shieldCode, shielded, directCode, copyCode, σ₁, σ₂, hshield, hdirect, hcopy, hrelease, rfl⟩ :=
    arguments_ok h
  have hlength := Nat.le_of_eq (length_of_argRegisters hregs).symm
  have hall := ((shield_links hexprs hlength hshield).trans (direct_links hexprs hdirect)).trans
    (releaseTemps_links hrelease)
  simpa [references_unshield hcopy] using hall

theorem references_result {ty : Ty} {target : Option Reservation} (h : result ty target = .ok code) :
    code.references = [] := by
  cases target with
  | none =>
    cases h
    rfl
  | some target => exact Code.references_copy h

theorem functionCall_links {callee : String} {target : Option Reservation}
    (hexprs : ∀ expr ∈ exprs, expr.operand.Links expr.callees)
    (h : (functionCall callee (exprs.map Expr.operand) target).run σ = (.ok code, τ)) :
    Links (callee :: Expr.allCallees exprs) code.references σ τ := by
  obtain ⟨signature, regs, argCode, resultCode, f, fs, σ₁, htable, -, hregs, hcode, -, hresult, rfl, rfl⟩ :=
    functionCall_ok h
  rw [List.length_map] at hregs
  have hargs := arguments_links hexprs hregs hcode
  have hoptions : σ₁.options = σ.options := by
    obtain ⟨_, hmark⟩ := Session.markUsed_eq callee σ
    rw [hargs.options, hmark]
  have hrecord : Links [] [] σ₁ (Session.recordSaves f.liveTempRegs.length (Session.recordCall σ₁)) :=
    .quiet rfl rfl rfl rfl rfl
  have hall := (Links.call (htable ▸ rfl) hargs).trans hrecord
  simpa [references_result hresult, Instr.reference?, hoptions] using hall

theorem trapOperands_links {number : Expr} {args : List Expr} (hnumber : number.operand.Links number.callees)
    (hargs : ∀ expr ∈ args, expr.operand.Links expr.callees) (hregs : argRegisters args.length = .ok regs)
    (h : (trapOperands number.operand (args.map Expr.operand) regs).run σ = (.ok code, τ)) :
    Links (number.callees ++ Expr.allCallees args) code.references σ τ := by
  rcases trapOperands_ok h with
    ⟨res, numberCode, argCode, copyCode, σ₁, σ₂, σ₃, -, hres, hlower, hargCode, hcopy, hrelease, rfl⟩ |
    ⟨argCode, numberCode, σ₁, hcalls, hargCode, hlower, rfl⟩
  · have hoperands := ((Links.onFrame hres).trans (hnumber hlower)).trans
      (arguments_links hargs hregs hargCode)
    simpa [Code.references_copy hcopy] using hoperands.trans (.onFrame hrelease)
  · have hquiet := hnumber hlower
    have hnone : number.callees = [] := Expr.callees_eq_nil hcalls
    rw [hnone] at hquiet ⊢
    simpa using (arguments_links hargs hregs hargCode).trans hquiet

theorem trap_links {target : Option Reservation}
    (hexprs : ∀ expr ∈ exprs, expr.operand.Links expr.callees)
    (h : (trap (exprs.map Expr.operand) target).run σ = (.ok code, τ)) :
    Links (Expr.allCallees exprs) code.references σ τ := by
  obtain ⟨number, args, regs, operandCode, resultCode, σ₁, hoperands, hregs, hcode, hresult, rfl, rfl⟩ :=
    trap_ok h
  obtain ⟨expr, exprs, rfl, rfl, rfl⟩ := List.map_eq_cons_iff.mp hoperands
  obtain ⟨hexpr, hrest⟩ := List.forall_mem_cons.mp hexprs
  rw [List.length_map] at hregs
  have hrecord : Links [] [] σ₁ (Session.recordCall σ₁) := .quiet rfl rfl rfl rfl rfl
  have hall := (trapOperands_links hexpr hrest hregs hcode).trans hrecord
  simpa [references_result hresult, List.filterMap_cons, Instr.reference?, Expr.allCallees] using hall

theorem call_links {callee : String} {target : Option Reservation}
    (hexprs : ∀ expr ∈ exprs, expr.operand.Links expr.callees)
    (h : (call callee (exprs.map Expr.operand) target).run σ = (.ok code, τ)) :
    Links ((if callee = trapCallee then [] else [callee]) ++ Expr.allCallees exprs) code.references σ τ := by
  rw [call] at h
  split at h
  case isTrue heq =>
    rw [if_pos heq]
    exact trap_links hexprs h
  case isFalse hne =>
    rw [if_neg hne]
    exact functionCall_links hexprs h

end Lower

/-! ## All expressions -/

theorem Expr.operand_links (expr : Expr) : expr.operand.Links expr.callees := by
  induction expr using Expr.induct with
  | literal value ty =>
    intro target σ code τ h
    obtain ⟨hcode, rfl⟩ := Lower.lift_run h
    rw [Code.references_putConstant hcode]
    exact .refl _
  | var name ty =>
    intro target σ code τ h
    obtain ⟨slot, σ₁, hslot, h₁⟩ := StepM.run_bind_eq_ok.mp h
    obtain ⟨hcode, rfl⟩ := Lower.lift_run h₁
    rw [Code.references_copy hcode]
    exact .onFrame hslot
  | deref pointer ty ih => exact Lower.unary_links ih
  | call callee args ty ih =>
    intro target σ code τ h
    simp only [Expr.operand, Expr.lower, operands_eq_map] at h
    exact Lower.call_links ih h
  | binary op lhs rhs ty ihl ihr => exact Lower.binary_links ihl ihr
  | unary op operand ty ih =>
    intro target σ code τ h
    simp only [Expr.operand, Expr.lower] at h
    split at h
    · have hlinks := Lower.addressOf_links h
      exact hlinks
    · exact Lower.unary_links ih h
  | array elements ty ih =>
    intro target σ code τ h
    obtain ⟨elementTy, first, slots, elementsCode, addressCode, σ₁, -, hslots, hcode, haddress, rfl⟩ :=
      Lower.array_ok h
    obtain ⟨copyCode, hcopy, rfl⟩ := Lower.address_ok haddress
    rw [operands_eq_map] at hslots hcode
    have hlength := Lower.reserveElements_length hslots
    rw [List.length_nil, Nat.zero_add, List.length_map] at hlength
    simpa [Expr.callees, Code.references_copy hcopy] using
      (Lower.reserveElements_links hslots).trans (Lower.elements_links ih hlength hcode)
  | str text ty => exact Lower.string_links
  | empty ty =>
    intro target σ code τ h
    cases h
    exact .refl _

end ArmBackend
