import ArmBackend.Proofs.Expr.Progress

/-!
# Arrays beside temporaries

An array leaves variables behind, and no variable is reserved while a temporary is live. So an array may be
the whole of an expression, or an argument of a call that is, but no operand of a binary operator.
-/

namespace ArmBackend

open Session (onFrame Advances onFrame_ok)
open ArmBackend.Frame (Rests Grows Over)

variable {R : Frame → Frame → Prop} {σ τ : Session}

def Session.Live (σ : Session) : Prop := ∃ f fs, σ.frames = f :: fs ∧ f.temporaries ≠ []

namespace Session.Live

theorem advances (h : σ.Live) (hadvance : Advances R σ τ)
    (hR : ∀ {f g}, R f g → f.temporaries ≠ [] → g.temporaries ≠ []) : τ.Live := by
  obtain ⟨f, fs, hf, hne⟩ := h
  obtain ⟨g, hg, hfg⟩ := hadvance.frames hf
  exact ⟨g, fs, hg, hR hfg hne⟩

theorem grows (h : σ.Live) (hadvance : Advances Grows σ τ) : τ.Live :=
  h.advances hadvance fun hfg hne => hfg.temporaries ▸ hne

theorem reserveTemp {ty : Ty} {res : Reservation}
    (hrun : (onFrame (Frame.reserveTemp ty)).run σ = (.ok res, τ)) : τ.Live := by
  obtain ⟨-, f, fs, g, -, hreserve, rfl⟩ := onFrame_ok hrun
  exact ⟨g, fs, rfl, Frame.reserveTemp_ne_nil hreserve⟩

end Session.Live

namespace Lower

theorem array_not_live {ty : Ty} {target : Reservation} {operands : List Operand} {code : Code}
    (h : (array ty target operands).run σ = (.ok code, τ)) : ¬ σ.Live := by
  rintro ⟨f, fs, hf, hne⟩
  obtain ⟨elementTy, first, slots, -, -, σ₁, -, hslots, -, -, -⟩ := array_ok h
  have hlength := reserveElements_length hslots
  cases operands with
  | nil => cases hlength
  | cons operand operands =>
    obtain ⟨slot, σ₂, hslot, -⟩ := StepM.run_bind_eq_ok.mp hslots
    obtain ⟨-, f', fs', g, hf', hrun, -⟩ := onFrame_ok hslot
    cases hf.symm.trans hf'
    exact hne (Frame.reserveVariable_ok hrun).1

end Lower

namespace Expr

/-- The expression builds no array if it is lowered while a temporary is live. -/
def Bare (expr : Expr) : Prop :=
  ∀ ⦃target σ code τ⦄, σ.Live → (expr.lower target).run σ = (.ok code, τ) → expr.arrayFree = true

variable {args : List Expr} {regs : List Register} {code : Code}

theorem operands_grow (exprs : List Expr) : ∀ operand ∈ operands exprs, operand.Keeps Grows :=
  forall_operands.mpr fun expr _ => expr.operand_grows

theorem shield_bare {out : Code × List (Reservation × Register)} (hargs : ∀ arg ∈ args, arg.Bare)
    (hlength : regs.length = args.length)
    (h : (Lower.shield (operands args) regs).run σ = (.ok out, τ)) :
    ∀ arg ∈ args, arg.containsCalls = true → arg.arrayFree = true := by
  induction args generalizing regs out σ with
  | nil => exact List.forall_mem_nil _
  | cons arg args ih =>
    obtain ⟨harg, hrest⟩ := List.forall_mem_cons.mp hargs
    cases regs with
    | nil => cases hlength
    | cons reg regs =>
      refine List.forall_mem_cons.mpr ?_
      cases hcalls : arg.containsCalls with
      | true =>
        obtain ⟨res, argCode, restCode, shielded, σ₁, σ₂, hres, hcode, htail, -⟩ :=
          Lower.shield_calls_ok hcalls h
        exact ⟨fun _ => harg (.reserveTemp hres) hcode, ih hrest (Nat.succ.inj hlength) htail⟩
      | false =>
        rw [operands, Lower.shield_quiet _ reg regs hcalls] at h
        exact ⟨by rintro ⟨⟩, ih hrest (Nat.succ.inj hlength) h⟩

theorem direct_bare (hargs : ∀ arg ∈ args, arg.Bare) (hlength : regs.length = args.length) (hlive : σ.Live)
    (h : (Lower.direct (operands args) regs).run σ = (.ok code, τ)) :
    ∀ arg ∈ args, arg.containsCalls = false → arg.arrayFree = true := by
  induction args generalizing regs code σ with
  | nil => exact List.forall_mem_nil _
  | cons arg args ih =>
    obtain ⟨harg, hrest⟩ := List.forall_mem_cons.mp hargs
    cases regs with
    | nil => cases hlength
    | cons reg regs =>
      refine List.forall_mem_cons.mpr ?_
      cases hcalls : arg.containsCalls with
      | true =>
        rw [operands, Lower.direct_calls _ reg regs hcalls] at h
        exact ⟨by rintro ⟨⟩, ih hrest (Nat.succ.inj hlength) hlive h⟩
      | false =>
        obtain ⟨argCode, restCode, σ₁, hcode, htail, -⟩ := Lower.direct_quiet_ok hcalls h
        exact ⟨fun _ => harg hlive hcode,
          ih hrest (Nat.succ.inj hlength) (hlive.grows (lower_grows hcode)) htail⟩

theorem arguments_bare (hargs : ∀ arg ∈ args, arg.Bare) (hlength : regs.length = args.length)
    (hlive : σ.Live) (h : (Lower.arguments (operands args) regs).run σ = (.ok code, τ)) :
    ∀ arg ∈ args, arg.arrayFree = true := by
  obtain ⟨shieldCode, shielded, directCode, -, σ₁, σ₂, hshield, hdirect, -, -, -⟩ :=
    Lower.arguments_ok h
  have hlive₁ : σ₁.Live := hlive.advances (Lower.shield_advances Frame.growth_grows (operands_grow args) hshield)
    fun {f g} hover hne => by
      cases hcount : shielded.length with
      | zero => exact (hcount ▸ hover.1 : Over 0 f g).temporaries ▸ hne
      | succ n => exact (hcount ▸ hover.1 : Over (n + 1) f g).1
  intro arg harg
  cases hcalls : arg.containsCalls with
  | true => exact shield_bare hargs hlength hshield arg harg hcalls
  | false => exact direct_bare hargs hlength hlive₁ hdirect arg harg hcalls

theorem call_bare {callee : String} {target : Option Reservation} (hargs : ∀ arg ∈ args, arg.Bare)
    (hlive : σ.Live) (h : (Lower.call callee (operands args) target).run σ = (.ok code, τ)) :
    ∀ arg ∈ args, arg.arrayFree = true := by
  have hcount : ∀ exprs : List Expr, (operands exprs).length = exprs.length := by
    intro exprs
    rw [operands_eq_map, List.length_map]
  rw [Lower.call] at h
  split at h
  · obtain ⟨number, rest, regs, operandCode, -, σ₁, hoperands, hregs, hcode, -, -, -⟩ := Lower.trap_ok h
    cases args with
    | nil => cases hoperands
    | cons first args =>
      cases hoperands
      obtain ⟨hfirst, hrest⟩ := List.forall_mem_cons.mp hargs
      have hlength := (Lower.length_of_argRegisters hregs).trans (hcount args)
      refine List.forall_mem_cons.mpr ?_
      rcases Lower.trapOperands_ok hcode with
        ⟨res, numberCode, argCode, -, σ₂, σ₃, σ₄, -, hres, hlower, hargCode, -, -, -⟩ |
        ⟨argCode, numberCode, σ₂, -, hargCode, hlower, -⟩
      · have hlive₂ : σ₂.Live := .reserveTemp hres
        exact ⟨hfirst hlive₂ hlower,
          arguments_bare hrest hlength (hlive₂.grows (lower_grows hlower)) hargCode⟩
      · have hadvance := Lower.arguments_advances Frame.growth_grows (operands_grow args) hargCode
        exact ⟨hfirst (hlive.grows hadvance) hlower, arguments_bare hrest hlength hlive hargCode⟩
  · obtain ⟨signature, regs, argCode, -, f, fs, σ₁, -, -, hregs, hcode, -⟩ := Lower.functionCall_ok h
    exact arguments_bare hargs ((Lower.length_of_argRegisters hregs).trans (hcount args))
      (hlive.grows ((Session.markUsed_advances callee σ).mono Rests.grows)) hcode

theorem unary_bare {op : UnOp} {target : Reservation} {operand : Expr} (hoperand : operand.Bare)
    (hlive : σ.Live) (h : (Lower.unary op target operand.operand).run σ = (.ok code, τ)) :
    operand.arrayFree = true := by
  obtain ⟨-, ⟨reg, -, operandCode, -, hcode, -, -⟩ |
    ⟨-, res, operandCode, -, σ₁, σ₂, hres, hcode, -, -, -⟩⟩ := Lower.unary_ok h
  · exact hoperand hlive hcode
  · exact hoperand (.reserveTemp hres) hcode

theorem binary_bare {op : BinOp} {ty : Ty} {target : Reservation} {lhs rhs : Expr} (hlhs : lhs.Bare)
    (hrhs : rhs.Bare) (h : (Lower.binary op ty target lhs.operand rhs.operand).run σ = (.ok code, τ)) :
    lhs.arrayFree = true ∧ rhs.arrayFree = true := by
  obtain ⟨left, leftCode, right, rightCode, -, σ₁, σ₂, σ₃, σ₄, σ₅, hleft, hleftCode, hright, hrightCode, -⟩ :=
    Lower.binary_ok h
  exact ⟨hlhs (.reserveTemp hleft) hleftCode, hrhs (.reserveTemp hright) hrightCode⟩

theorem bare (expr : Expr) : expr.Bare := by
  induction expr using Expr.induct with
  | deref pointer ty ih =>
    intro target σ code τ hlive h
    have hfree := unary_bare ih hlive h
    exact hfree
  | call callee args ty ih => exact fun _ _ _ _ hlive h => allArrayFree_eq_true.mpr (call_bare ih hlive h)
  | binary op lhs rhs ty ihl ihr =>
    intro target σ code τ hlive h
    exact Bool.and_eq_true_iff.mpr (binary_bare ihl ihr h)
  | unary op operand ty ih =>
    intro target σ code τ hlive h
    simp only [Expr.lower] at h
    split at h
    · obtain ⟨name, ty, slot, rfl, -⟩ := Lower.addressOf_ok h
      rfl
    · have hfree := unary_bare ih hlive h
      exact hfree
  | array elements ty ih => exact fun _ _ _ _ hlive h => absurd hlive (Lower.array_not_live h)
  | _ => exact fun _ _ _ _ _ _ => rfl

end Expr

end ArmBackend
