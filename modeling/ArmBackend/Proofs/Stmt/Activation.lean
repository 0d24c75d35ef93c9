import ArmBackend.Proofs.Machine.Run
import ArmBackend.Proofs.Stmt.Laid
import ArmBackend.Proofs.Stmt.Progress

/-!
# Activations

One run of a function body in a text: what holds between its statements, what they may change, and where
each outcome of a statement leads.
-/

namespace ArmBackend

open Session (onFrame Advances onFrame_ok)

def Setting.withEnv (S : Setting) (env : Env) (typed : (env.context S.ctx).Typed) : Setting :=
  { S with ctx := env.context S.ctx, typed, serves := S.serves }

theorem Frame.Clobbers.to_empty {f : Frame} {calls : Bool} {reg : Register}
    (h : f.Clobbers calls reg) : ({} : Frame).Clobbers calls reg :=
  h.imp_right fun h => h.imp_right fun h => h.imp_left fun h => ⟨h.1, RegSet.contains_empty reg⟩

/-- A run of a function body. The context of the setting says what texts and calls are worth. -/
structure Activation where
  image : Image
  setting : Setting
  signature : Signature
  /-- Whether the body may call out. -/
  calls : Bool
  linked : setting.world = image.linked

namespace Activation

variable {A : Activation} {f g : Frame} {fs : List Frame} {env : Env} {s t u : State}

/-! ## What may change -/

/-- The states differ in registers that a body uses freely and below the frame pointer only. -/
def Moves (A : Activation) (s t : State) : Prop :=
  ChangesOnly (fun reg => reg = .result ∨ ({} : Frame).Clobbers A.calls reg)
    (Scratch (s.regs .framePointer) 0 A.setting.bound) s t

namespace Moves

theorem refl (s : State) : A.Moves s s := ChangesOnly.refl _ _ s

theorem framePointer (h : A.Moves s t) : t.regs .framePointer = s.regs .framePointer :=
  h.reg _ fun hreg => hreg.elim nofun (Frame.not_clobbers_framePointer _ _)

theorem stackPointer (h : A.Moves s t) : t.regs .stackPointer = s.regs .stackPointer :=
  h.reg _ fun hreg => hreg.elim nofun (Frame.not_clobbers_stackPointer _ _)

theorem trans (h : A.Moves s t) (h' : A.Moves t u) : A.Moves s u := by
  have hfp := h.framePointer
  rw [Moves, hfp] at h'
  exact ChangesOnly.trans h h'

theorem of_only {calls : Bool} (hcalls : calls = true → A.calls = true) {low : Nat}
    (h : ChangesOnly (f.Clobbers calls) (Scratch (s.regs .framePointer) low A.setting.bound) s t) :
    A.Moves s t :=
  h.mono (fun _ hreg => Or.inr (hreg.to_empty.mono hcalls)) fun _ ha =>
    ha.mono (Nat.zero_le _) (Nat.le_refl _)

end Moves

/-! ## Between statements -/

structure Stands (A : Activation) (f : Frame) (env : Env) (s : State) : Prop where
  settled : f.Settled
  laid : env.Laid f s
  position : f.position ≤ A.setting.extent
  ready : A.calls = true → A.setting.Ready s

namespace Stands

theorem position_lt (h : A.Stands f env s) : f.position < 2 ^ 64 :=
  Nat.lt_of_le_of_lt (Nat.le_trans h.position A.setting.extent_le) A.setting.bound_lt

theorem scratch (h : A.Stands f env s) {name : String} {slot : Slot}
    (hlookup : f.symbols.lookup name = some slot) {fp a : Word}
    (ha : slot.reservation.Covers fp a) : Scratch fp 0 A.setting.bound a := by
  obtain ⟨hsize, hle, hposition⟩ := h.settled.bounds hlookup
  have hlt := h.position_lt
  have hextent := A.setting.extent_le
  have hstands := h.position
  have hcovers := (Slot.covers_iff hsize hle (by omega)).mp ha
  exact ⟨Nat.lt_of_le_of_lt (Nat.zero_le _) hcovers.1, by omega⟩

theorem ready_moves (h : A.Stands f env s) (hmoves : A.Moves s t) (hcalls : A.calls = true) :
    A.setting.Ready t := by
  have hready := h.ready hcalls
  refine ⟨?_, ?_, ?_, hready.room⟩
  · rw [State.StackAligned, hmoves.stackPointer]
    exact hready.aligned
  · rw [hmoves.stackPointer, hmoves.framePointer]
    exact hready.pointer
  · rw [hmoves.framePointer]
    exact hready.bound

theorem moves {env' : Env} (h : A.Stands f env s) (hmoves : A.Moves s t) (hlaid : env'.Laid f t) :
    A.Stands f env' t :=
  ⟨h.settled, hlaid, h.position, h.ready_moves hmoves⟩

theorem of_rests (h : A.Stands f env s) (hfg : f.Rests g) : A.Stands g env s where
  settled := h.settled.of_rests hfg
  laid := h.laid.of_symbols hfg.symbols
  position := hfg.position ▸ h.position
  ready := h.ready

theorem pushLoop (h : A.Stands f env s) (id : Nat) : A.Stands (f.pushLoop id) env s :=
  ⟨h.settled.pushLoop id, h.laid.of_symbols rfl, h.position, h.ready⟩

/-! ## Expressions -/

abbrev setting (h : A.Stands f env s) : Setting := A.setting.withEnv env h.laid.typed

theorem worth (h : A.Stands f env s) {expr : Expr} (hplain : expr.Plain) {v : Word}
    (hv : expr.eval (env.context A.setting.ctx) = some v) : h.setting.Worth expr v where
  eval := hv
  arrayFree := hplain.arrayFree
  wellTyped := hplain.built.wellTyped
  evaluates := Setting.evaluates expr hplain.arrayFree hplain.built.wellTyped hv

theorem before (h : A.Stands f env s) {calls : Bool} (hcalls : calls = true → A.calls = true) :
    h.setting.Before f calls s where
  agrees := h.laid.agrees h.settled _
  position := h.position
  ready := fun hc => by
    have hready := h.ready (hcalls hc)
    exact ⟨hready.aligned, hready.pointer, hready.bound, hready.room⟩

theorem after (h : A.Stands f env s) {τ : Session} (hafter : A.setting.After τ) :
    h.setting.After τ := ⟨hafter.peak, hafter.texts, hafter.label⟩

variable {σ σ₁ τ : Session} {code : Code} {expr : Expr} {v : Word}

theorem ensures_lower (h : A.Stands f env s) (hplain : expr.Plain)
    (hv : expr.eval (env.context A.setting.ctx) = some v) {target : Reservation}
    (hcode : (expr.lower target).run σ = (.ok code, τ)) (hf : σ.frames = f :: fs)
    (hafter : A.setting.After τ) (hfits : target.Fits f) (hadmits : expr.Admits f target)
    (hcalls : expr.containsCalls = true → A.calls = true) :
    Code.Ensures A.image.linked code s
      (Lands f expr.containsCalls A.setting.bound target v s) :=
  A.linked ▸ (h.worth hplain hv).evaluates hcode hf (h.after hafter) hfits hadmits (h.before hcalls)

theorem ensures_temp (h : A.Stands f env s) (hplain : expr.Plain)
    (hv : expr.eval (env.context A.setting.ctx) = some v) {ty : Ty} {temp : Reservation}
    (htemp : (onFrame (Frame.reserveTemp ty)).run σ = (.ok temp, σ₁))
    (hcode : (expr.lower temp).run σ₁ = (.ok code, τ)) (hf : σ.frames = f :: fs)
    (hafter : A.setting.After τ) (hcalls : expr.containsCalls = true → A.calls = true) :
    ∃ reg, temp = .ofReg ty reg ∧ Code.Ensures A.image.linked code s fun t => t.regs reg = v ∧
      ChangesOnly (f.Clobbers expr.containsCalls)
        (Scratch (s.regs .framePointer) f.position A.setting.bound) s t := by
  obtain ⟨f₁, -, hrun⟩ := (onFrame_ok htemp).1.frames hf
  obtain rfl := h.settled.reserveTemp hrun
  obtain ⟨g, -, -, -, hens⟩ := (h.worth hplain hv).temp_keep htemp hcode hf (h.after hafter)
    (h.before hcalls) id
  exact ⟨.indirectResult, rfl, A.linked ▸ hens⟩

end Stands

/-! ## Outcomes -/

/-- Where the code from line `pc` on leads when a statement has the outcome. Its end is line `next`, and
`g` is the frame there. -/
def Goes (A : Activation) (f g : Frame) (s : State) (pc next : Nat) : Outcome → Prop
  | .next env => A.image.Reaches pc s next fun t => env.Laid g t ∧ A.Moves s t
  | .broke env => ∀ id pc', f.loops.head? = some id →
    A.image.code.address? (.loopExit id) = some pc' →
    A.image.Reaches pc s pc' fun t => env.Laid f t ∧ A.Moves s t
  | .continued env => ∀ id pc', f.loops.head? = some id →
    A.image.code.address? (.loopCond id) = some pc' →
    A.image.Reaches pc s pc' fun t => env.Laid f t ∧ A.Moves s t
  | .returned value => ∀ pc', A.image.code.address? (.returnOf A.signature.name) = some pc' →
    A.image.Reaches pc s pc' fun t => (∀ v, value = some v → t.regs .result = v) ∧ A.Moves s t

variable {pc pc' next : Nat} {outcome : Outcome}

namespace Goes

theorem of_symbols {f' g' : Frame} (h : A.Goes f' g' s pc next outcome)
    (hf : f'.symbols = f.symbols) (hloops : f'.loops = f.loops) (hg : g'.symbols = g.symbols) :
    A.Goes f g s pc next outcome := by
  cases outcome with
  | next env => exact h.mono fun t ht => ⟨ht.1.of_symbols hg.symm, ht.2⟩
  | broke env =>
    exact fun id pc' hid haddress => (h id pc' (hloops ▸ hid) haddress).mono fun t ht =>
      ⟨ht.1.of_symbols hf.symm, ht.2⟩
  | continued env =>
    exact fun id pc' hid haddress => (h id pc' (hloops ▸ hid) haddress).mono fun t ht =>
      ⟨ht.1.of_symbols hf.symm, ht.2⟩
  | returned value => exact h

theorem after_moves (hst : A.image.Reaches pc s pc' fun t => t = u) (hmoves : A.Moves s u)
    (h : A.Goes f g u pc' next outcome) : A.Goes f g s pc next outcome := by
  cases outcome with
  | next env =>
    refine hst.trans fun t ht => ?_
    subst ht
    exact h.mono fun t ht => ⟨ht.1, hmoves.trans ht.2⟩
  | broke env =>
    refine fun id pc' hid haddress => hst.trans fun t ht => ?_
    subst ht
    exact (h id pc' hid haddress).mono fun t ht => ⟨ht.1, hmoves.trans ht.2⟩
  | continued env =>
    refine fun id pc' hid haddress => hst.trans fun t ht => ?_
    subst ht
    exact (h id pc' hid haddress).mono fun t ht => ⟨ht.1, hmoves.trans ht.2⟩
  | returned value =>
    refine fun pc' haddress => hst.trans fun t ht => ?_
    subst ht
    exact (h pc' haddress).mono fun t ht => ⟨ht.1, hmoves.trans ht.2⟩

theorem reaches_next (h : A.Goes f g s pc pc' outcome)
    (hnext : ∀ t, A.image.Reaches pc' t next fun u => u = t) : A.Goes f g s pc next outcome := by
  cases outcome with
  | next env =>
    refine Image.Reaches.trans h fun t ht => (hnext t).mono fun u hu => ?_
    subst hu
    exact ht
  | _ => exact h

end Goes

end Activation

end ArmBackend
