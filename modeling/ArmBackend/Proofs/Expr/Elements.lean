import ArmBackend.Proofs.Expr.Progress

/-!
# Slots of array elements

Lowering an expression takes one variable for each element of the arrays in it. It gives none of them
back.
-/

namespace ArmBackend

open Session (onFrame Advances onFrame_ok)

/-! ## Counting elements -/

namespace Expr

mutual

def elementCount : Expr → Nat
  | .array elements _ => elements.length + totalElementCount elements
  | .deref pointer _ => pointer.elementCount
  | .call _ args _ => totalElementCount args
  | .binary _ lhs rhs _ => lhs.elementCount + rhs.elementCount
  | .unary _ operand _ => operand.elementCount
  | .literal .. | .var .. | .str .. | .empty _ => 0

def totalElementCount : List Expr → Nat
  | [] => 0
  | expr :: exprs => expr.elementCount + totalElementCount exprs

end

/-- The elements in those of the expressions that call out, or in the others. -/
def elementShare (calls : Bool) : List Expr → Nat
  | [] => 0
  | expr :: exprs =>
    (if expr.containsCalls = calls then expr.elementCount else 0) + elementShare calls exprs

theorem elementShare_add (exprs : List Expr) :
    elementShare true exprs + elementShare false exprs = totalElementCount exprs := by
  induction exprs with
  | nil => rfl
  | cons expr exprs ih =>
    simp only [elementShare, totalElementCount, ← ih]
    cases expr.containsCalls <;> simp <;> omega

end Expr

/-! ## Counting variables -/

namespace Frame

def Adds (count : Nat) (f g : Frame) : Prop :=
  ∃ slots : List Slot, slots.length = count ∧ g.locals = slots ++ f.locals

variable {m n : Nat} {f g h : Frame}

theorem Adds.of_locals (hfg : g.locals = f.locals) : Adds 0 f g := ⟨[], rfl, hfg⟩

theorem Adds.trans (hfg : Adds m f g) (hgh : Adds n g h) : Adds (m + n) f h := by
  obtain ⟨slots, rfl, hg⟩ := hfg
  obtain ⟨slots', rfl, hh⟩ := hgh
  refine ⟨slots' ++ slots, ?_, ?_⟩
  · rw [List.length_append, Nat.add_comm]
  · rw [hh, hg, List.append_assoc]

theorem reserveTemp_adds {ty : Ty} {res : Reservation} (h : (reserveTemp ty).run f = (.ok res, g)) :
    Adds 0 f g := by
  obtain ⟨-, ⟨reg, -, -, -, rfl⟩ | ⟨-, rfl⟩⟩ := reserveTemp_ok h <;> exact .of_locals rfl

theorem releaseTemp_adds (h : releaseTemp.run f = (.ok (), g)) : Adds 0 f g := by
  obtain ⟨res, temporaries, -, ⟨reg, -, rfl⟩ | ⟨padding, paddings, -, -, rfl⟩⟩ := releaseTemp_ok h <;>
    exact .of_locals rfl

theorem reserveVariable_adds {ty : Ty} {slot : Slot}
    (h : (reserveVariable ty).run f = (.ok slot, g)) : Adds 1 f g := by
  obtain ⟨-, -, -, rfl⟩ := reserveVariable_ok h
  exact ⟨[slot], rfl, rfl⟩

end Frame

open ArmBackend.Frame (Adds)

variable {σ σ₁ τ : Session} {code : Code} {m n : Nat}

theorem Session.Advances.adds (h : Advances (Adds m) σ σ₁) (h' : Advances (Adds n) σ₁ τ) :
    Advances (Adds (m + n)) σ τ :=
  h.comp h' Adds.trans

theorem Session.reserveTemp_adds {ty : Ty} {res : Reservation}
    (h : (onFrame (Frame.reserveTemp ty)).run σ = (.ok res, τ)) : Advances (Adds 0) σ τ :=
  (onFrame_ok h).1.mono Frame.reserveTemp_adds

theorem Session.releaseTemp_adds (h : (onFrame Frame.releaseTemp).run σ = (.ok (), τ)) :
    Advances (Adds 0) σ τ :=
  (onFrame_ok h).1.mono Frame.releaseTemp_adds

theorem Session.Advances.adds_zero (h : Advances Frame.Rests σ τ) : Advances (Adds 0) σ τ :=
  h.mono fun hrest => .of_locals hrest.locals

/-! ## Forms of expressions -/

namespace Lower

variable {exprs : List Expr} {regs : List Register}

theorem unary_adds {op : UnOp} {target : Reservation} (operand : Expr)
    (hoperand : operand.operand.Keeps (Adds operand.elementCount))
    (h : (unary op target operand.operand).run σ = (.ok code, τ)) :
    Advances (Adds operand.elementCount) σ τ := by
  obtain ⟨-, ⟨reg, -, operandCode, -, hcode, -, -⟩ |
    ⟨-, res, operandCode, -, σ₁, σ₂, hres, hcode, -, hrelease, -⟩⟩ := unary_ok h
  · exact hoperand _ hcode
  · have hinner := (Session.reserveTemp_adds hres).adds (hoperand res hcode)
    simpa only [Nat.zero_add, Nat.add_zero] using hinner.adds (Session.releaseTemp_adds hrelease)

theorem binary_adds {op : BinOp} {ty : Ty} {target : Reservation} {lhs rhs : Expr}
    (hlhs : lhs.operand.Keeps (Adds lhs.elementCount))
    (hrhs : rhs.operand.Keeps (Adds rhs.elementCount))
    (h : (binary op ty target lhs.operand rhs.operand).run σ = (.ok code, τ)) :
    Advances (Adds (lhs.elementCount + rhs.elementCount)) σ τ := by
  obtain ⟨left, leftCode, right, rightCode, -, σ₁, σ₂, σ₃, σ₄, σ₅, hleft, hleftCode, hright,
    hrightCode, -, hrelease, hrelease', -, -⟩ := binary_ok h
  have h₂ := (Session.reserveTemp_adds hleft).adds (hlhs left hleftCode)
  have h₄ := (h₂.adds (Session.reserveTemp_adds hright)).adds (hrhs right hrightCode)
  have hall := (h₄.adds (Session.releaseTemp_adds hrelease)).adds (Session.releaseTemp_adds hrelease')
  simpa only [Nat.zero_add, Nat.add_zero] using hall

/-! ### Arrays -/

theorem reserveElements_adds {ty : Ty} {count : Nat} {slots slots' : List Slot}
    (h : (reserveElements ty count slots).run σ = (.ok slots', τ)) :
    Advances (Adds count) σ τ := by
  induction count generalizing slots σ with
  | zero =>
    cases h
    exact (Advances.refl _).adds_zero
  | succ count ih =>
    obtain ⟨slot, σ₁, hslot, h₁⟩ := StepM.run_bind_eq_ok.mp h
    have hfirst : Advances (Adds 1) σ σ₁ := (onFrame_ok hslot).1.mono Frame.reserveVariable_adds
    rw [Nat.add_comm count 1]
    exact hfirst.adds (ih h₁)

theorem elements_adds {slots : List Slot}
    (hexprs : ∀ expr ∈ exprs, expr.operand.Keeps (Adds expr.elementCount))
    (hlength : slots.length = exprs.length)
    (h : (elements slots (exprs.map Expr.operand)).run σ = (.ok code, τ)) :
    Advances (Adds (Expr.totalElementCount exprs)) σ τ := by
  induction exprs generalizing slots σ code with
  | nil =>
    obtain rfl := List.eq_nil_of_length_eq_zero hlength
    cases h
    exact (Advances.refl _).adds_zero
  | cons expr exprs ih =>
    cases slots with
    | nil => cases hlength
    | cons slot slots =>
      obtain ⟨elementCode, σ₁, helement, h₁⟩ := StepM.run_bind_eq_ok.mp h
      obtain ⟨restCode, σ₂, hrest, h₂⟩ := StepM.run_bind_eq_ok.mp h₁
      cases h₂
      exact (hexprs expr List.mem_cons_self _ helement).adds
        (ih (fun other hother => hexprs other (List.mem_cons_of_mem _ hother))
          (Nat.succ.inj hlength) hrest)

/-! ### Calls -/

theorem shield_adds {out : Code × List (Reservation × Register)}
    (hexprs : ∀ expr ∈ exprs, expr.operand.Keeps (Adds expr.elementCount))
    (hlength : exprs.length ≤ regs.length)
    (h : (shield (exprs.map Expr.operand) regs).run σ = (.ok out, τ)) :
    Advances (Adds (Expr.elementShare true exprs)) σ τ := by
  induction exprs generalizing regs out σ with
  | nil =>
    simp only [List.map_nil, shield] at h
    cases h
    exact (Advances.refl _).adds_zero
  | cons expr exprs ih =>
    have hrest : ∀ expr ∈ exprs, expr.operand.Keeps (Adds expr.elementCount) :=
      fun other hother => hexprs other (List.mem_cons_of_mem _ hother)
    cases regs with
    | nil => simp at hlength
    | cons reg regs =>
      have hlength' : exprs.length ≤ regs.length := by simpa using hlength
      cases hcalls : expr.containsCalls with
      | true =>
        obtain ⟨res, argCode, restCode, shielded, σ₁, σ₂, hres, hcode, htail, -⟩ :=
          shield_calls_ok (show expr.operand.calls = true from hcalls) h
        have hfirst := (Session.reserveTemp_adds hres).adds (hexprs expr List.mem_cons_self res hcode)
        rw [Nat.zero_add] at hfirst
        rw [Expr.elementShare, hcalls, if_pos rfl]
        exact hfirst.adds (ih hrest hlength' htail)
      | false =>
        rw [List.map_cons, shield_quiet _ reg regs (show expr.operand.calls = false from hcalls)] at h
        rw [Expr.elementShare, hcalls, if_neg Bool.false_ne_true, Nat.zero_add]
        exact ih hrest hlength' h

theorem direct_adds (hexprs : ∀ expr ∈ exprs, expr.operand.Keeps (Adds expr.elementCount))
    (hlength : exprs.length ≤ regs.length)
    (h : (direct (exprs.map Expr.operand) regs).run σ = (.ok code, τ)) :
    Advances (Adds (Expr.elementShare false exprs)) σ τ := by
  induction exprs generalizing regs code σ with
  | nil =>
    simp only [List.map_nil, direct] at h
    cases h
    exact (Advances.refl _).adds_zero
  | cons expr exprs ih =>
    have hrest : ∀ expr ∈ exprs, expr.operand.Keeps (Adds expr.elementCount) :=
      fun other hother => hexprs other (List.mem_cons_of_mem _ hother)
    cases regs with
    | nil => simp at hlength
    | cons reg regs =>
      have hlength' : exprs.length ≤ regs.length := by simpa using hlength
      cases hcalls : expr.containsCalls with
      | true =>
        rw [List.map_cons, direct_calls _ reg regs (show expr.operand.calls = true from hcalls)] at h
        rw [Expr.elementShare, hcalls, if_neg (by simp), Nat.zero_add]
        exact ih hrest hlength' h
      | false =>
        obtain ⟨argCode, restCode, σ₁, hcode, htail, -⟩ :=
          direct_quiet_ok (show expr.operand.calls = false from hcalls) h
        rw [Expr.elementShare, hcalls, if_pos rfl]
        exact (hexprs expr List.mem_cons_self _ hcode).adds (ih hrest hlength' htail)

theorem releaseTemps_adds {count : Nat} (h : (releaseTemps count).run σ = (.ok (), τ)) :
    Advances (Adds 0) σ τ := by
  induction count generalizing σ with
  | zero =>
    cases h
    exact (Advances.refl _).adds_zero
  | succ count ih =>
    obtain ⟨_, σ₁, hrelease, h₁⟩ := StepM.run_bind_eq_ok.mp h
    exact (Session.releaseTemp_adds hrelease).adds (ih h₁)

theorem arguments_adds (hexprs : ∀ expr ∈ exprs, expr.operand.Keeps (Adds expr.elementCount))
    (hregs : argRegisters exprs.length = .ok regs)
    (h : (arguments (exprs.map Expr.operand) regs).run σ = (.ok code, τ)) :
    Advances (Adds (Expr.totalElementCount exprs)) σ τ := by
  obtain ⟨shieldCode, shielded, directCode, copyCode, σ₁, σ₂, hshield, hdirect, -, hrelease, -⟩ :=
    arguments_ok h
  have hlength := Nat.le_of_eq (length_of_argRegisters hregs).symm
  have hall := ((shield_adds hexprs hlength hshield).adds (direct_adds hexprs hlength hdirect)).adds
    (releaseTemps_adds hrelease)
  rwa [Expr.elementShare_add, Nat.add_zero] at hall

theorem functionCall_adds {callee : String} {target : Option Reservation}
    (hexprs : ∀ expr ∈ exprs, expr.operand.Keeps (Adds expr.elementCount))
    (h : (functionCall callee (exprs.map Expr.operand) target).run σ = (.ok code, τ)) :
    Advances (Adds (Expr.totalElementCount exprs)) σ τ := by
  obtain ⟨signature, regs, argCode, resultCode, f, fs, σ₁, -, -, hregs, hcode, -, -, rfl, -⟩ :=
    functionCall_ok h
  rw [List.length_map] at hregs
  have hargs := (Session.markUsed_advances callee σ).adds_zero.adds (arguments_adds hexprs hregs hcode)
  have hall := (hargs.adds (Session.recordCall_advances σ₁).adds_zero).adds
    (Session.recordSaves_advances f.liveTempRegs.length (Session.recordCall σ₁)).adds_zero
  simpa only [Nat.zero_add, Nat.add_zero] using hall

theorem trapOperands_adds {number : Expr} {args : List Expr}
    (hnumber : number.operand.Keeps (Adds number.elementCount))
    (hargs : ∀ expr ∈ args, expr.operand.Keeps (Adds expr.elementCount))
    (hregs : argRegisters args.length = .ok regs)
    (h : (trapOperands number.operand (args.map Expr.operand) regs).run σ = (.ok code, τ)) :
    Advances (Adds (number.elementCount + Expr.totalElementCount args)) σ τ := by
  rcases trapOperands_ok h with
    ⟨res, numberCode, argCode, -, σ₁, σ₂, σ₃, -, hres, hlower, hargCode, -, hrelease, -⟩ |
    ⟨argCode, numberCode, σ₁, -, hargCode, hlower, -⟩
  · have hnumber₁ := (Session.reserveTemp_adds hres).adds (hnumber res hlower)
    have hall := (hnumber₁.adds (arguments_adds hargs hregs hargCode)).adds
      (Session.releaseTemp_adds hrelease)
    simpa only [Nat.zero_add, Nat.add_zero] using hall
  · rw [Nat.add_comm]
    exact (arguments_adds hargs hregs hargCode).adds (hnumber _ hlower)

theorem trap_adds {target : Option Reservation}
    (hexprs : ∀ expr ∈ exprs, expr.operand.Keeps (Adds expr.elementCount))
    (h : (trap (exprs.map Expr.operand) target).run σ = (.ok code, τ)) :
    Advances (Adds (Expr.totalElementCount exprs)) σ τ := by
  obtain ⟨number, args, regs, operandCode, resultCode, σ₁, hoperands, hregs, hcode, -, rfl, -⟩ :=
    trap_ok h
  obtain ⟨expr, exprs, rfl, rfl, rfl⟩ := List.map_eq_cons_iff.mp hoperands
  rw [List.length_map] at hregs
  exact (trapOperands_adds (hexprs expr List.mem_cons_self)
    (fun other hother => hexprs other (List.mem_cons_of_mem _ hother)) hregs hcode).adds
    (Session.recordCall_advances σ₁).adds_zero

end Lower

/-! ## All expressions -/

theorem Expr.operand_adds (expr : Expr) : expr.operand.Keeps (Adds expr.elementCount) := by
  induction expr using Expr.induct with
  | literal value ty =>
    intro target σ code τ h
    obtain ⟨-, rfl⟩ := Lower.lift_run h
    exact (Advances.refl _).adds_zero
  | var name ty =>
    intro target σ code τ h
    obtain ⟨slot, σ₁, hslot, h₁⟩ := StepM.run_bind_eq_ok.mp h
    obtain ⟨-, rfl⟩ := Lower.lift_run h₁
    exact (Lower.resolve_advances hslot).adds_zero
  | deref pointer ty ih =>
    exact fun target σ code τ h => Lower.unary_adds pointer ih h
  | call callee args ty ih =>
    intro target σ code τ h
    simp only [Expr.operand, Expr.lower, operands_eq_map, Lower.call] at h
    split at h
    · exact Lower.trap_adds ih h
    · exact Lower.functionCall_adds ih h
  | binary op lhs rhs ty ihl ihr => exact fun target σ code τ h => Lower.binary_adds ihl ihr h
  | unary op operand ty ih =>
    intro target σ code τ h
    simp only [Expr.operand, Expr.lower] at h
    split at h
    · obtain ⟨name, _, slot, rfl, hslot, -⟩ := Lower.addressOf_ok h
      exact (Lower.resolve_advances hslot).adds_zero
    · exact Lower.unary_adds operand ih h
  | array elements ty ih =>
    intro target σ code τ h
    obtain ⟨elementTy, first, slots, elementsCode, -, σ₁, -, hslots, hcode, -, -⟩ :=
      Lower.array_ok h
    rw [operands_eq_map] at hslots hcode
    have hlength := Lower.reserveElements_length hslots
    have hreserved := Lower.reserveElements_adds hslots
    rw [List.length_nil, Nat.zero_add, List.length_map] at hlength
    rw [List.length_map] at hreserved
    exact hreserved.adds (Lower.elements_adds ih hlength hcode)
  | str text ty =>
    intro target σ code τ h
    obtain ⟨label, hlabel, -⟩ := Lower.string_ok h
    exact (Session.intern_ok hlabel).1.adds_zero
  | empty ty =>
    intro target σ code τ h
    cases h
    exact (Advances.refl _).adds_zero

end ArmBackend
