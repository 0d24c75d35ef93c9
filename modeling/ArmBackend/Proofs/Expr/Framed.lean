import ArmBackend.Proofs.Expr.Array
import ArmBackend.Proofs.Expr.Outcome
import ArmBackend.Proofs.Machine.Framed

/-!
# Expressions stay in the frame

The code of an expression reaches no further below the frame pointer than the frame has been. Every slot
that it uses is taken while it is lowered, or it is that of a name or of the target. It takes the addresses of
named slots and of the arrays that are in the expression.
-/

namespace ArmBackend

open Code (Framed)
open Session (onFrame)

/-! ## Arrays in an expression -/

namespace Expr

mutual

def arrays : Expr → List (Ty × Nat)
  | .array elements ty => (ty, elements.length) :: allArrays elements
  | .call _ args _ => allArrays args
  | .deref pointer _ => pointer.arrays
  | .binary _ lhs rhs _ => lhs.arrays ++ rhs.arrays
  | .unary _ operand _ => operand.arrays
  | .literal .. | .var .. | .str .. | .empty _ => []

def allArrays : List Expr → List (Ty × Nat)
  | [] => []
  | expr :: exprs => expr.arrays ++ allArrays exprs

end

theorem arrays_subset_allArrays {expr : Expr} {exprs : List Expr} (h : expr ∈ exprs) :
    expr.arrays ⊆ allArrays exprs := by
  induction exprs with
  | nil => cases h
  | cons first exprs ih =>
    rw [allArrays]
    rcases List.mem_cons.mp h with rfl | h
    · exact List.subset_append_left _ _
    · exact List.subset_append_of_subset_right _ (ih h)

end Expr

variable {α β : Type} {arrays : List (Ty × Nat)}

/-! ## Frames -/

namespace Frame

variable {f g : Frame} {ty : Ty}

def reach (f : Frame) : Reach := ⟨f.highWater, f.symbols.map Prod.snd⟩

/-- Every name stands for a slot above the high-water mark. -/
def Bounded (f : Frame) : Prop := ∀ entry ∈ f.symbols, entry.2.Inside f.reach

theorem reach_le (hsymbols : g.symbols = f.symbols) (hpeak : f.highWater ≤ g.highWater) : f.reach ≤ g.reach :=
  ⟨hpeak, by simp only [reach, hsymbols, List.Subset.refl]⟩

theorem Bounded.of_symbols (hf : f.Bounded) (hsymbols : g.symbols = f.symbols)
    (hpeak : f.highWater ≤ g.highWater) : g.Bounded := fun entry hentry =>
  (hf entry (hsymbols ▸ hentry)).mono (reach_le hsymbols hpeak)

theorem inside_withSlot (f : Frame) (hsize : 0 < ty.size) :
    Slot.Inside (f.withSlot ty).reach ⟨f.position + f.slotSize ty, ty⟩ :=
  ⟨hsize, Nat.le_trans (Nat.le_add_left _ _) (Nat.le_add_left _ _), Nat.le_max_right _ _⟩

end Frame

/-! ## Steps -/

namespace Session

def Deep (reach : Reach) (session : Session) : Prop :=
  ∃ f fs, session.frames = f :: fs ∧ f.Bounded ∧ f.reach = reach

/-- Where the step succeeds on a frame that reaches so far, its value is as `P` says for what the frame reaches
then. -/
def Yields (reach : Reach) (step : CompileM α) (P : Reach → α → Prop) : Prop :=
  ∀ σ a τ, σ.Deep reach → step.run σ = (.ok a, τ) →
    ∃ reach', reach ≤ reach' ∧ τ.Deep reach' ∧ P reach' a

namespace Yields

variable {reach : Reach} {step : CompileM α} {next : α → CompileM β} {P : Reach → α → Prop}
  {Q : Reach → β → Prop} {ty : Ty} {code : Code}

theorem pure {a : α} (h : P reach a) : Yields reach (pure a) P := by
  intro σ b τ hdeep hrun
  cases hrun
  exact ⟨reach, le_refl _, hdeep, h⟩

theorem throw {e : CompileError} : Yields reach (throw e) P := fun _ _ _ _ hrun => nomatch hrun

theorem lift {outcome : Except CompileError α} (h : ∀ a, outcome = .ok a → P reach a) :
    Yields reach (monadLift outcome) P := by
  intro σ a τ hdeep hrun
  obtain ⟨hok, rfl⟩ := Lower.lift_run hrun
  exact ⟨reach, le_refl _, hdeep, h a hok⟩

theorem bind (h : Yields reach step P)
    (hnext : ∀ reach' a, reach ≤ reach' → P reach' a → Yields reach' (next a) Q) :
    Yields reach (step >>= next) Q := by
  intro σ b υ hdeep hrun
  obtain ⟨a, τ, hstep, hrest⟩ := StepM.run_bind_eq_ok.mp hrun
  obtain ⟨reach', hle, hdeep', hP⟩ := h σ a τ hdeep hstep
  obtain ⟨reach'', hle', hdeep'', hQ⟩ := hnext reach' a hle hP τ b υ hdeep' hrest
  exact ⟨reach'', hle.trans hle', hdeep'', hQ⟩

theorem and_run {R : α → Prop} (h : Yields reach step P)
    (hrun : ∀ {σ a τ}, σ.Deep reach → step.run σ = (.ok a, τ) → R a) :
    Yields reach step fun reach' a => P reach' a ∧ R a := by
  intro σ a τ hdeep hstep
  obtain ⟨reach', hle, hdeep', hP⟩ := h σ a τ hdeep hstep
  exact ⟨reach', hle, hdeep', hP, hrun hdeep hstep⟩

theorem skip (h : Yields reach step fun _ _ => True)
    (hnext : ∀ reach' a, reach ≤ reach' → Yields reach' (next a) Q) : Yields reach (step >>= next) Q :=
  bind h fun reach' a hle _ => hnext reach' a hle

theorem check {outcome : Except CompileError α} {next : α → CompileM β}
    (hnext : ∀ a, outcome = .ok a → Yields reach (next a) Q) :
    Yields reach (monadLift outcome >>= next) Q := by
  intro σ b υ hdeep hrun
  obtain ⟨a, τ, hstep, hrest⟩ := StepM.run_bind_eq_ok.mp hrun
  obtain ⟨hok, rfl⟩ := Lower.lift_run hstep
  exact hnext a hok _ b υ hdeep hrest

theorem modify {f : Session → Session} (h : ∀ session, (f session).frames = session.frames) :
    Yields reach (modify f : CompileM Unit) fun _ _ => True := by
  rintro σ _ τ ⟨f, fs, hframes, hbounded, hpeak⟩ hrun
  cases hrun
  exact ⟨reach, le_refl _, ⟨f, fs, (h σ).trans hframes, hbounded, hpeak⟩, trivial⟩

theorem get {P : Reach → Session → Prop} (h : ∀ session, P reach session) :
    Yields reach (get : CompileM Session) P := by
  intro σ a τ hdeep hrun
  cases hrun
  exact ⟨reach, le_refl _, hdeep, h _⟩

theorem onFrame {operation : FrameM α}
    (h : ∀ {f a g}, f.Bounded → operation.run f = (.ok a, g) →
      g.Bounded ∧ f.reach ≤ g.reach ∧ P g.reach a) : Yields reach (onFrame operation) P := by
  rintro σ a τ ⟨f, fs, hframes, hbounded, rfl⟩ hrun
  obtain ⟨-, f', fs', g, hframes', hoperation, rfl⟩ := onFrame_ok hrun
  cases hframes.symm.trans hframes'
  obtain ⟨hbounded', hle, hP⟩ := h hbounded hoperation
  exact ⟨g.reach, hle, ⟨g, fs, rfl, hbounded', rfl⟩, hP⟩

theorem reserveTemp (ty : Ty) :
    Yields reach (Session.onFrame (Frame.reserveTemp ty)) fun reach' res => res.Housed reach' :=
  onFrame fun hbounded hrun => by
    obtain ⟨hsize, ⟨reg, hbank, -, rfl, rfl⟩ | ⟨rfl, rfl⟩⟩ := Frame.reserveTemp_ok hrun
    · exact ⟨hbounded, le_refl _, .register ty (Register.volatile_of_tempBank hbank)⟩
    · exact ⟨hbounded.of_symbols rfl (Nat.le_max_left _ _), Frame.reach_le rfl (Nat.le_max_left _ _),
        .slot (Frame.inside_withSlot _ hsize)⟩

theorem releaseTemp : Yields reach (Session.onFrame Frame.releaseTemp) fun _ _ => True :=
  onFrame fun hbounded hrun => by
    obtain ⟨_, _, -, ⟨_, -, rfl⟩ | ⟨_, _, -, -, rfl⟩⟩ := Frame.releaseTemp_ok hrun <;>
      exact ⟨hbounded, le_refl _, trivial⟩

theorem resolve (name : String) :
    Yields reach (Session.onFrame (Frame.resolve name)) fun reach' slot =>
      slot ∈ reach'.named ∧ slot.Inside reach' :=
  onFrame fun hbounded hrun => by
    obtain ⟨hlookup, rfl⟩ := Frame.resolve_ok hrun
    have hmem := Frame.mem_symbols hlookup
    exact ⟨hbounded, le_refl _, List.mem_map_of_mem hmem, hbounded _ hmem⟩

theorem reserveVariable (ty : Ty) :
    Yields reach (Session.onFrame (Frame.reserveVariable ty)) fun reach' slot => slot.Inside reach' :=
  onFrame fun hbounded hrun => by
    obtain ⟨-, hsize, rfl, rfl⟩ := Frame.reserveVariable_ok hrun
    exact ⟨hbounded.of_symbols rfl (Nat.le_max_left _ _), Frame.reach_le rfl (Nat.le_max_left _ _),
      Frame.inside_withSlot _ hsize⟩

end Yields

end Session

open Session (Yields)

/-! ## Operands -/

def Operand.Framed (arrays : List (Ty × Nat)) (operand : Operand) : Prop :=
  ∀ ⦃reach target⦄, target.Housed reach → Yields reach (operand.lower target) (Code.Framed arrays)

namespace Lower

variable {reach : Reach} {target : Reservation} {args : List Operand} {regs : List Register}

theorem binary_framed {op : BinOp} {ty : Ty} {lhs rhs : Operand} (hlhs : lhs.Framed arrays) (hrhs : rhs.Framed arrays)
    (htarget : target.Housed reach) : Yields reach (binary op ty target lhs rhs) (Framed arrays) :=
  .check fun _ _ =>
  .bind (.reserveTemp ty) fun _ _ h₁ hleft => .bind (hlhs hleft) fun _ _ h₂ hleftCode =>
  .bind (.reserveTemp rhs.ty) fun _ _ h₃ hright => .bind (hrhs hright) fun _ _ h₄ hrightCode =>
  .check fun _ hop =>
  .skip .releaseTemp fun _ _ h₅ => .skip .releaseTemp fun _ _ h₆ =>
    have hcode := BinOp.framed_code hop (hleft.mono (by order)) (hright.mono h₄) (htarget.mono (by order))
    .pure (.append (.append (hleftCode.mono (by order)) (hrightCode.mono (by order)))
      (hcode.mono (by order)))

theorem unary_framed {op : UnOp} {operand : Operand} (hoperand : operand.Framed arrays)
    (htarget : target.Housed reach) : Yields reach (unary op target operand) (Framed arrays) := by
  refine .check fun _ _ => ?_
  cases htarget with
  | register ty hreg =>
    exact .bind (hoperand (.register _ hreg)) fun _ _ h₁ hcode => .check fun _ hop =>
      .pure (.append hcode (UnOp.framed_code hop (.register _ hreg) (.register _ hreg)))
  | slot hinside =>
    exact .bind (.reserveTemp operand.ty) fun _ _ h₁ hres => .bind (hoperand hres) fun _ _ h₂ hcode =>
      .check fun _ hop => .skip .releaseTemp fun _ _ h₃ =>
        have hopCode := UnOp.framed_code hop (hres.mono h₂) (.slot (hinside.mono (by order)))
        .pure (.append (hcode.mono h₃) (hopCode.mono h₃))

theorem framed_address {build : Register → Code} {code : Code} (h : address target build = .ok code)
    (htarget : target.Housed reach) (hbuild : ∀ reg, reg.Volatile → Framed arrays reach (build reg)) :
    Framed arrays reach code := by
  obtain ⟨copyCode, hcopy, rfl⟩ := address_ok h
  have hstaging := htarget.staging
  exact .append (hbuild _ hstaging) (Code.framed_copy hcopy (htarget.inRegister hstaging) htarget)

theorem addressOf_framed {operand : Expr} (htarget : target.Housed reach) :
    Yields reach (addressOf target operand) (Framed arrays) := by
  cases operand with
  | var name ty =>
    exact .bind (.resolve name) fun _ _ h₁ hslot => .lift fun _ haddress =>
      framed_address haddress (htarget.mono h₁) fun reg _ => .address reg hslot.1 hslot.2
  | _ => exact .throw

theorem signatureOf_framed (name : String) : Yields reach (Session.signatureOf name) fun _ _ => True := by
  intro σ signature τ hdeep hrun
  obtain ⟨-, rfl⟩ := Session.signatureOf_ok hrun
  exact ⟨reach, le_refl _, hdeep, trivial⟩

theorem liveTempRegs_framed : Yields reach (onFrame (Frame.liveTempRegs <$> get)) fun _ live =>
    ∀ reg ∈ live, reg.Volatile :=
  .onFrame fun hbounded hrun => by
    cases hrun
    exact ⟨hbounded, le_refl _, fun reg hreg =>
      Register.volatile_of_tempBank (List.mem_of_mem_filter hreg)⟩

theorem intern_framed (text : String) : Yields reach (Session.intern text) fun _ _ => True := by
  rintro σ label τ ⟨f, fs, hframes, hbounded, hpeak⟩ hrun
  cases hrun
  exact ⟨reach, le_refl _, ⟨f, fs, hframes, hbounded, hpeak⟩, trivial⟩

theorem string_framed {text : String} (htarget : target.Housed reach) :
    Yields reach (string target text) (Framed arrays) :=
  .skip (intern_framed text) fun _ label h₁ => .lift fun _ haddress =>
    framed_address haddress (htarget.mono h₁) fun _ hreg => Code.framed_labelAddress hreg label

/-! ## Arrays -/

theorem reserveElements_framed {ty : Ty} {count : Nat} :
    Yields reach (reserveElements ty count []) fun reach' slots =>
      (∀ slot ∈ slots, slot.Inside reach') ∧
        ∀ first ∈ slots.head?, first.ty = ty ∧ 0 < count ∧ count * ty.size ≤ first.offset := by
  have hinside : ∀ {reach slots}, (∀ slot ∈ slots, slot.Inside reach) →
      Yields reach (reserveElements ty count slots) fun reach' slots' => ∀ slot ∈ slots', slot.Inside reach' := by
    induction count with
    | zero => exact fun hslots => .pure hslots
    | succ count ih =>
      exact fun hslots => .bind (.reserveVariable ty) fun _ slot h₁ hslot => ih (List.forall_mem_cons.mpr
        ⟨hslot, fun other hother => (hslots other hother).mono h₁⟩)
  refine (hinside (List.forall_mem_nil _)).and_run fun {σ slots τ} hdeep hrun first hfirst => ?_
  obtain ⟨f, fs, hf, -, -⟩ := hdeep
  obtain ⟨g, -, hrows, rfl⟩ := reserveElements_rows hf hrun
  cases count with
  | zero => cases hfirst
  | succ count =>
    rw [List.append_nil, Slot.head?_row] at hfirst
    cases hfirst
    exact ⟨rfl, Nat.succ_pos _, hrows.room⟩

theorem elements_framed {slots : List Slot} {operands : List Operand}
    (hoperands : ∀ operand ∈ operands, operand.Framed arrays) (hslots : ∀ slot ∈ slots, slot.Inside reach) :
    Yields reach (elements slots operands) (Framed arrays) := by
  induction slots generalizing reach operands with
  | nil => exact .pure .nil
  | cons slot slots ih =>
    cases operands with
    | nil => exact .pure .nil
    | cons operand operands =>
      obtain ⟨hslot, hslots⟩ := List.forall_mem_cons.mp hslots
      obtain ⟨hoperand, hoperands⟩ := List.forall_mem_cons.mp hoperands
      exact .bind (hoperand (.slot hslot)) fun _ _ h₁ hcode =>
        .bind (ih hoperands fun other hother => (hslots other hother).mono h₁) fun _ _ h₂ hrest =>
          .pure (.append (hcode.mono h₂) hrest)

theorem array_framed {ty : Ty} {operands : List Operand} (hliteral : (ty, operands.length) ∈ arrays)
    (hoperands : ∀ operand ∈ operands, operand.Framed arrays) (htarget : target.Housed reach) :
    Yields reach (array ty target operands) (Framed arrays) := by
  rw [array]
  cases hty : ty.pointee? with
  | none => exact .throw
  | some elementTy =>
    refine .bind reserveElements_framed fun _ slots h₁ hslots =>
      .bind (elements_framed hoperands hslots.1) fun _ _ h₂ hcode => ?_
    cases slots with
    | nil => exact .throw
    | cons first slots =>
      have hfirst := (hslots.1 first List.mem_cons_self).mono h₂
      obtain ⟨rfl, hcount, hroom⟩ := hslots.2 first rfl
      exact .check fun _ haddress => .pure (.append hcode (framed_address haddress (htarget.mono (by order))
        fun reg _ => .elements reg hliteral hty ⟨Nat.mul_pos hcount hfirst.pos, hroom, hfirst.low⟩))

/-! ## Calls -/

theorem shield_framed (hargs : ∀ arg ∈ args, arg.Framed arrays) (hregs : ∀ reg ∈ regs, reg.Volatile) :
    Yields reach (shield args regs) fun reach' out =>
      Framed arrays reach' out.1 ∧ ∀ p ∈ out.2, p.1.Housed reach' ∧ p.2.Volatile := by
  induction args generalizing reach regs with
  | nil => exact .pure ⟨.nil, List.forall_mem_nil _⟩
  | cons arg args ih =>
    cases regs with
    | nil => exact .pure ⟨.nil, List.forall_mem_nil _⟩
    | cons reg regs =>
      obtain ⟨harg, hargs⟩ := List.forall_mem_cons.mp hargs
      obtain ⟨hreg, hregs⟩ := List.forall_mem_cons.mp hregs
      rw [shield]
      split
      · refine .bind (.reserveTemp arg.ty) fun _ res h₁ hres => .bind (harg hres) fun _ _ h₂ hcode =>
          .bind (ih hargs hregs) fun _ out h₃ hout => .pure ⟨.append (hcode.mono h₃) hout.1, ?_⟩
        exact List.forall_mem_cons.mpr ⟨⟨hres.mono (by order), hreg⟩, hout.2⟩
      · exact ih hargs hregs

theorem direct_framed (hargs : ∀ arg ∈ args, arg.Framed arrays) (hregs : ∀ reg ∈ regs, reg.Volatile) :
    Yields reach (direct args regs) (Framed arrays) := by
  induction args generalizing reach regs with
  | nil => exact .pure .nil
  | cons arg args ih =>
    cases regs with
    | nil => exact .pure .nil
    | cons reg regs =>
      obtain ⟨harg, hargs⟩ := List.forall_mem_cons.mp hargs
      obtain ⟨hreg, hregs⟩ := List.forall_mem_cons.mp hregs
      rw [direct]
      split
      · exact ih hargs hregs
      · exact .bind (harg (.register _ hreg)) fun _ _ h₁ hcode => .bind (ih hargs hregs) fun _ _ h₂ hrest =>
          .pure (.append (hcode.mono h₂) hrest)

theorem framed_unshield {shielded : List (Reservation × Register)} {code : Code}
    (h : unshield shielded = .ok code) (hshielded : ∀ p ∈ shielded, p.1.Housed reach ∧ p.2.Volatile) :
    Framed arrays reach code := by
  induction shielded generalizing code with
  | nil =>
    cases h
    exact .nil
  | cons p shielded ih =>
    obtain ⟨copyCode, restCode, hcopy, hrest, rfl⟩ := unshield_cons_ok h
    obtain ⟨⟨hres, hreg⟩, hshielded⟩ := List.forall_mem_cons.mp hshielded
    exact .append (Code.framed_copy hcopy hres (hres.inRegister hreg)) (ih hrest hshielded)

theorem releaseTemps_framed {count : Nat} : Yields reach (releaseTemps count) fun _ _ => True := by
  induction count generalizing reach with
  | zero => exact .pure trivial
  | succ count ih => exact .skip .releaseTemp fun _ _ _ => ih

theorem arguments_framed (hargs : ∀ arg ∈ args, arg.Framed arrays) (hregs : ∀ reg ∈ regs, reg.Volatile) :
    Yields reach (arguments args regs) (Framed arrays) :=
  .bind (shield_framed hargs hregs) fun _ _ h₁ hshield => .bind (direct_framed hargs hregs) fun _ _ h₂ hdirect =>
  .check fun _ hcopy => .skip releaseTemps_framed fun _ _ h₃ =>
    have hcopies := framed_unshield hcopy fun p hp => (hshield.2 p hp).imp_left (·.mono h₂)
    .pure (.append (.append (hshield.1.mono (by order)) (hdirect.mono h₃)) (hcopies.mono h₃))

theorem framed_result {ty : Ty} {target : Option Reservation} {code : Code} (h : result ty target = .ok code)
    (htarget : ∀ res ∈ target, res.Housed reach) : Framed arrays reach code := by
  cases target with
  | none =>
    cases h
    exact .nil
  | some target =>
    have hresult : Register.result.Volatile := trivial
    exact Code.framed_copy h (.register ty hresult) (htarget target rfl)

theorem functionCall_framed {callee : String} {target : Option Reservation}
    (hargs : ∀ arg ∈ args, arg.Framed arrays) (htarget : ∀ res ∈ target, res.Housed reach) :
    Yields reach (functionCall callee args target) (Framed arrays) :=
  .skip (signatureOf_framed callee) fun _ signature h₁ => .check fun _ _ =>
  .skip (.modify (Session.markUsed_frames callee)) fun _ _ h₂ => .check fun _ hregs =>
  .bind (arguments_framed hargs (volatile_of_argRegisters hregs)) fun _ _ h₃ hargCode =>
  .bind liveTempRegs_framed fun _ live h₄ hlive =>
  .skip (.get fun _ => trivial) fun _ session h₅ =>
  .skip (.modify fun _ => rfl) fun _ _ h₆ => .skip (.modify fun _ => rfl) fun _ _ h₇ =>
  .check fun _ hresult =>
    have hcall : (Instr.bl (session.options.functionLabel callee)).Plain :=
      .of_volatile trivial (List.forall_mem_nil _)
    have hresultCode := framed_result hresult fun res hres => (htarget res hres).mono (by order)
    .pure (.append (.append (.append (.append (hargCode.mono (by order)) (Code.framed_saveRegs hlive))
      (.one hcall)) (Code.framed_restoreRegs hlive)) hresultCode)

theorem trapOperands_framed {number : Operand} (hnumber : number.Framed arrays) (hargs : ∀ arg ∈ args, arg.Framed arrays)
    (hregs : ∀ reg ∈ regs, reg.Volatile) : Yields reach (trapOperands number args regs) (Framed arrays) := by
  have htrap : ∀ {reach}, (Reservation.ofReg .int .trapNumber).Housed reach := by
    intro reach
    have hvolatile : Register.trapNumber.Volatile := trivial
    exact .register .int hvolatile
  rw [trapOperands]
  split
  · exact .bind (.reserveTemp .int) fun _ res h₁ hres => .bind (hnumber hres) fun _ _ h₂ hcode =>
      .bind (arguments_framed hargs hregs) fun _ _ h₃ hargCode => .check fun _ hcopy =>
      .skip .releaseTemp fun _ _ h₄ =>
        have hcopyCode := Code.framed_copy hcopy (hres.mono (by order)) htrap
        .pure (.append (.append (hcode.mono (by order)) (hargCode.mono h₄)) (hcopyCode.mono h₄))
  · exact .bind (arguments_framed hargs hregs) fun _ _ h₁ hargCode =>
      .bind (hnumber htrap) fun _ _ h₂ hcode => .pure (.append (hargCode.mono h₂) hcode)

theorem trap_framed {operands : List Operand} {target : Option Reservation}
    (hoperands : ∀ operand ∈ operands, operand.Framed arrays) (htarget : ∀ res ∈ target, res.Housed reach) :
    Yields reach (trap operands target) (Framed arrays) := by
  cases operands with
  | nil => exact .throw
  | cons number args =>
    obtain ⟨hnumber, hargs⟩ := List.forall_mem_cons.mp hoperands
    have himm : trapImm ≤ 65535 := by decide
    have hsvc : (Instr.svc trapImm).Plain := .of_volatile himm (List.forall_mem_nil _)
    exact .check fun _ hregs =>
      .bind (trapOperands_framed hnumber hargs (volatile_of_argRegisters hregs)) fun _ _ h₁ hcode =>
      .skip (.modify fun _ => rfl) fun _ _ h₂ => .check fun _ hresult =>
        have hresultCode := framed_result hresult fun res hres => (htarget res hres).mono (by order)
        .pure (.append (.append (hcode.mono h₂) (.one hsvc)) hresultCode)

theorem call_framed {callee : String} {target : Option Reservation} (hargs : ∀ arg ∈ args, arg.Framed arrays)
    (htarget : ∀ res ∈ target, res.Housed reach) : Yields reach (call callee args target) (Framed arrays) := by
  rw [call]
  split
  · exact trap_framed hargs htarget
  · exact functionCall_framed hargs htarget

end Lower

/-! ## All expressions -/

theorem Expr.operand_framed (expr : Expr) (harrays : expr.arrays ⊆ arrays) : expr.operand.Framed arrays := by
  have hall : ∀ {exprs : List Expr}, allArrays exprs ⊆ arrays →
      (∀ expr ∈ exprs, expr.arrays ⊆ arrays → expr.operand.Framed arrays) →
      ∀ operand ∈ operands exprs, operand.Framed arrays := fun hsub ih =>
    forall_operands.mpr fun expr hexpr => ih expr hexpr (List.Subset.trans (arrays_subset_allArrays hexpr) hsub)
  induction expr using Expr.induct with
  | literal value ty => exact fun _ _ htarget => .lift fun _ hcode => Code.framed_putConstant hcode htarget
  | var name ty =>
    exact fun _ _ htarget => .bind (.resolve name) fun _ slot h₁ hslot => .lift fun _ hcode =>
      Code.framed_copy hcode (.slot hslot.2) (htarget.mono h₁)
  | deref pointer ty ih => exact fun _ _ htarget => Lower.unary_framed (ih harrays) htarget
  | call callee args ty ih =>
    exact fun _ _ htarget => Lower.call_framed (hall harrays ih) fun _ hres => by
      cases hres
      exact htarget
  | binary op lhs rhs ty ihl ihr =>
    obtain ⟨hl, hr⟩ := List.append_subset.mp harrays
    exact fun _ _ htarget => Lower.binary_framed (ihl hl) (ihr hr) htarget
  | unary op operand ty ih =>
    intro _ _ htarget
    simp only [Expr.operand, Expr.lower]
    split
    · exact Lower.addressOf_framed htarget
    · exact Lower.unary_framed (ih harrays) htarget
  | array elements ty ih =>
    obtain ⟨hself, hothers⟩ := List.cons_subset.mp harrays
    have hliteral : (ty, (operands elements).length) ∈ arrays := by
      rwa [operands_eq_map, List.length_map]
    exact fun _ _ htarget => Lower.array_framed hliteral (hall hothers ih) htarget
  | str text ty => exact fun _ _ htarget => Lower.string_framed htarget
  | empty ty => exact fun _ _ _ => .pure .nil

/-- The code of an expression stays in the frame if its target does. -/
theorem Expr.lower_framed (expr : Expr) (harrays : expr.arrays ⊆ arrays) {reach : Reach} {target : Reservation}
    (htarget : target.Housed reach) : Session.Yields reach (expr.lower target) (Framed arrays) :=
  expr.operand_framed harrays htarget

end ArmBackend
