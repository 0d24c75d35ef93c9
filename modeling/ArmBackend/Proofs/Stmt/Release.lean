import ArmBackend.Expr.Build
import ArmBackend.Proofs.Expr.Elements
import ArmBackend.Proofs.Stmt.Progress

/-!
# What a store gives back

A store through a pointer keeps its two operands in variables and gives the newest two variables back at
its end. These are its own exactly if neither operand has an array element, which would be newer.
-/

namespace ArmBackend

open Session (onFrame onFrame_ok)

/-! ## Frames with the same slots -/

theorem Stacked.unique {slots : List Slot} {paddings paddings' : List Nat} {position position' : Nat}
    (h : Stacked slots paddings position) (h' : Stacked slots paddings' position') :
    paddings' = paddings ∧ position' = position := by
  induction h generalizing paddings' position' with
  | nil =>
    cases h'
    exact ⟨rfl, rfl⟩
  | cons slot padding _ _ offset ih =>
    cases h' with
    | cons _ padding' below _ offset' =>
      obtain ⟨rfl, rfl⟩ := ih below
      exact ⟨by rw [show padding' = padding by omega], rfl⟩

namespace Frame

variable {f g : Frame}

theorem Valid.nodup_locals (hf : f.Valid) : f.locals.Nodup := by
  have hpairwise := hf.stacked.pairwise
  have hslots : f.slots.Nodup := hpairwise.imp_of_mem fun {a b} ha _ hle hab => by
    have hsize := (hf.stacked.bounds a ha).1
    rw [hab] at hle hsize
    omega
  exact (List.nodup_append.mp hslots).2.1

theorem Valid.rests (hf : f.Valid) (hg : g.Valid) (hlocals : g.locals = f.locals)
    (htemporaries : g.temporaries = f.temporaries) (hlive : g.liveRegs = f.liveRegs)
    (hsymbols : g.symbols = f.symbols) (hloops : g.loops = f.loops)
    (hhigh : f.highWater ≤ g.highWater) : Rests f g := by
  have hslots : g.slots = f.slots := by rw [slots, slots, htemporaries, hlocals]
  have hstacked := hg.stacked
  rw [hslots] at hstacked
  obtain ⟨hpaddings, hposition⟩ := hf.stacked.unique hstacked
  exact ⟨hlocals, htemporaries, hlive, hsymbols, hposition, hpaddings, hloops, hhigh⟩

theorem Grows.releaseVariables {h k : Frame} {newest newer : Slot} {locals : List Slot}
    (hf : f.Valid) (hfg : Grows f g) (hg : g.locals = newest :: newer :: locals)
    (hrun : releaseVariable.run g = (.ok (), h)) (hrun' : releaseVariable.run h = (.ok (), k)) :
    k.locals = locals ∧ (locals = f.locals → Rests f k) := by
  have hvalid : k.Valid := by
    have hh := (hfg.valid hf).releaseVariable
    rw [hrun] at hh
    have hk := hh.releaseVariable
    rwa [hrun'] at hk
  obtain ⟨-, slot, _, _, _, hslot, -, rfl⟩ := releaseVariable_ok hrun
  cases hg.symm.trans hslot
  obtain ⟨-, slot', _, _, _, hslot', -, rfl⟩ := releaseVariable_ok hrun'
  cases hslot'
  exact ⟨rfl, fun hlocals => hf.rests hvalid hlocals hfg.temporaries hfg.liveRegs hfg.symbols
    hfg.loops hfg.highWater⟩

end Frame

/-! ## Stores -/

namespace Lower

variable {σ τ : Session} {code : Code} {f g : Frame} {fs gs : List Frame} {pointer expr : Expr}

/-- The variables before the release: what the operands keep for their elements lies above the variable
of each. -/
theorem store_locals (hvalid : f.Valid) (hf : σ.frames = f :: fs)
    (h : (store pointer expr).run σ = (.ok code, τ)) (hg : τ.frames = g :: gs) :
    ∃ valueSlot pointerElements valueElements newest newer,
      pointerElements.length = pointer.elementCount ∧ valueElements.length = expr.elementCount ∧
      newest :: newer :: g.locals = valueElements ++ valueSlot :: (pointerElements ++
        ⟨f.position + f.slotSize pointer.ty, pointer.ty⟩ :: f.locals) ∧
      (newest :: newer :: g.locals).Nodup ∧ (g.locals = f.locals → Frame.Rests f g) := by
  obtain ⟨pointee, pointerSlot, pointerCode, valueSlot, valueCode, loadPointer, loadValue, σ₁, σ₂, σ₃,
    σ₄, σ₅, -, hpointer, hpointerCode, hvalue, hvalueCode, -, -, hrelease, hrelease', -⟩ := store_ok h
  obtain ⟨f₁, hf₁, hrun₁⟩ := (onFrame_ok hpointer).1.frames hf
  obtain ⟨f₂, hf₂, hgrows₂⟩ := (Expr.lower_grows hpointerCode).frames hf₁
  obtain ⟨f₂', hf₂', pointerElements, hpointerCount, hlocals₂⟩ :=
    (pointer.operand_adds _ hpointerCode).frames hf₁
  cases hf₂.symm.trans hf₂'
  obtain ⟨f₃, hf₃, hrun₃⟩ := (onFrame_ok hvalue).1.frames hf₂
  obtain ⟨f₄, hf₄, hgrows₄⟩ := (Expr.lower_grows hvalueCode).frames hf₃
  obtain ⟨f₄', hf₄', valueElements, hvalueCount, hlocals₄⟩ :=
    (expr.operand_adds _ hvalueCode).frames hf₃
  cases hf₄.symm.trans hf₄'
  obtain ⟨f₅, hf₅, hrun₅⟩ := (onFrame_ok hrelease).1.frames hf₄
  obtain ⟨g', hg', hrun₆⟩ := (onFrame_ok hrelease').1.frames hf₅
  cases hg.symm.trans hg'
  have hgrows : Frame.Grows f f₄ := ((Frame.reserveVariable_grows hrun₁).trans hgrows₂).trans
    ((Frame.reserveVariable_grows hrun₃).trans hgrows₄)
  obtain ⟨-, -, rfl, rfl⟩ := Frame.reserveVariable_ok hrun₁
  obtain ⟨-, -, hslot₃, rfl⟩ := Frame.reserveVariable_ok hrun₃
  rw [hlocals₂] at hlocals₄
  -- Two variables have been taken, so there are two to give back.
  obtain ⟨newest, newer, locals, hlocals⟩ : ∃ newest newer locals,
      f₄.locals = newest :: newer :: locals := by
    rw [hlocals₄]
    rcases valueElements with _ | ⟨a, _ | ⟨b, valueElements⟩⟩
    · rcases pointerElements with _ | ⟨c, pointerElements⟩ <;> exact ⟨_, _, _, rfl⟩
    · exact ⟨_, _, _, rfl⟩
    · exact ⟨_, _, _, rfl⟩
  obtain ⟨rfl, hrests⟩ := hgrows.releaseVariables hvalid hlocals hrun₅ hrun₆
  refine ⟨valueSlot, pointerElements, valueElements, newest, newer, hpointerCount, hvalueCount,
    hlocals.symm.trans hlocals₄, ?_, hrests⟩
  rw [← hlocals]
  exact (hgrows.valid hvalid).nodup_locals

theorem store_suffix (hvalid : f.Valid) (hf : σ.frames = f :: fs)
    (h : (store pointer expr).run σ = (.ok code, τ)) (hg : τ.frames = g :: gs) :
    f.locals <:+ g.locals := by
  obtain ⟨valueSlot, pointerElements, valueElements, newest, newer, -, -, hlocals, -, -⟩ :=
    store_locals hvalid hf h hg
  have hall : f.locals <:+ newest :: newer :: g.locals := by
    rw [hlocals]
    exact ((List.suffix_cons _ _).trans (List.suffix_append _ _)).trans
      ((List.suffix_cons _ _).trans (List.suffix_append _ _))
  have hlength := congrArg List.length hlocals
  simp only [List.length_cons, List.length_append] at hlength
  refine List.suffix_of_suffix_length_le hall ?_ (by omega)
  exact (List.suffix_cons _ _).trans (List.suffix_cons _ _)

/-- A store leaves as many variables more as its operands have array elements. It gives back its own
two, and leaves the frame as it was, exactly if there are no elements. Otherwise it keeps the variable of
its pointer instead of one of theirs. -/
theorem store_rests_iff (hreachable : f.Reachable) (hf : σ.frames = f :: fs)
    (h : (store pointer expr).run σ = (.ok code, τ)) (hg : τ.frames = g :: gs) :
    f.locals <:+ g.locals ∧
      g.locals.length = f.locals.length + (pointer.elementCount + expr.elementCount) ∧
      (Frame.Rests f g ↔ pointer.elementCount + expr.elementCount = 0) ∧
      ((⟨f.position + f.slotSize pointer.ty, pointer.ty⟩ : Slot) ∈ g.locals ↔
        pointer.elementCount + expr.elementCount ≠ 0) := by
  obtain ⟨valueSlot, pointerElements, valueElements, newest, newer, hpointer, hvalue, hlocals, hnodup,
    hrests⟩ := store_locals hreachable.valid hf h hg
  have hlength := congrArg List.length hlocals
  simp only [List.length_cons, List.length_append, hpointer, hvalue] at hlength
  have hcount : g.locals.length = f.locals.length + (pointer.elementCount + expr.elementCount) := by
    omega
  have hsuffix := store_suffix hreachable.valid hf h hg
  refine ⟨hsuffix, hcount, ⟨fun hrest => ?_, fun hzero => ?_⟩, ⟨fun hmem hzero => ?_, fun hne => ?_⟩⟩
  · rw [hrest.locals] at hcount
    omega
  · exact hrests (hsuffix.eq_of_length (by omega)).symm
  · obtain rfl := List.eq_nil_of_length_eq_zero (l := pointerElements) (by omega)
    obtain rfl := List.eq_nil_of_length_eq_zero (l := valueElements) (by omega)
    obtain ⟨rfl, hnewer⟩ := List.cons.inj hlocals
    obtain ⟨rfl, -⟩ := List.cons.inj hnewer
    obtain ⟨-, hnodup'⟩ := List.nodup_cons.mp hnodup
    exact (List.nodup_cons.mp hnodup').1 hmem
  · -- The pointer's variable has at least two variables above it.
    have hdrop : g.locals = (valueElements ++ valueSlot :: (pointerElements ++
        ⟨f.position + f.slotSize pointer.ty, pointer.ty⟩ :: f.locals)).drop 2 := by
      rw [← hlocals]
      rfl
    have hassoc : valueElements ++ valueSlot :: (pointerElements ++
        (⟨f.position + f.slotSize pointer.ty, pointer.ty⟩ : Slot) :: f.locals) =
          (valueElements ++ valueSlot :: pointerElements) ++
            ⟨f.position + f.slotSize pointer.ty, pointer.ty⟩ :: f.locals := by simp
    rw [hdrop, hassoc, List.drop_append_of_le_length]
    · exact List.mem_append_right _ List.mem_cons_self
    · simp only [List.length_append, List.length_cons]
      omega

/-- `*p = f([1, 2])`, where `p` is the first variable. -/
theorem store_rests_iff_array :
    let value : Expr := .call "f" [.array [Build.int 1, Build.int 2] (.ptr .int)] .int
    let start : Session := { Session.start {} with
      declared := [⟨.int, "f", [⟨.ptr .int, "a"⟩]⟩]
      frames := [Frame.Op.apply {} (.addVariable (.ptr .int) "p")] }
    ∃ code τ f, (store (Build.var "p" (.ptr .int)) value).run start = (.ok code, τ) ∧
      τ.frames = [f] ∧ (⟨16, .ptr .int⟩ : Slot) ∈ f.locals ∧ f.locals.length = 3 := by
  intro value start
  obtain ⟨code, τ, hrun, -⟩ := StepM.exists_of_any
    ((store (Build.var "p" (.ptr .int)) value).run start) (fun _ _ => true) (by decide +kernel)
  obtain ⟨f, hf, -⟩ := (store_peaks hrun).frames (f := Frame.Op.apply {} (.addVariable (.ptr .int) "p")) rfl
  obtain ⟨-, hlength, -, hkept⟩ :=
    store_rests_iff (.apply (.addVariable (.ptr .int) "p") .empty) rfl hrun hf
  exact ⟨code, τ, f, hrun, hf, hkept.mpr (by decide), hlength⟩

/-- The same store. The next variable takes the place of the second element, which the code has stored
before the call. -/
theorem store_frees_element :
    let value : Expr := .call "f" [.array [Build.int 1, Build.int 2] (.ptr .int)] .int
    let start : Session := { Session.start {} with
      declared := [⟨.int, "f", [⟨.ptr .int, "a"⟩]⟩]
      frames := [Frame.Op.apply {} (.addVariable (.ptr .int) "p")] }
    ∃ code τ, (store (Build.var "p" (.ptr .int)) value).run start = (.ok code, τ) ∧
      ((onFrame (Frame.addVariable .int "y")).run τ).1.toOption = some ⟨32, .int⟩ ∧
      Code.constant .staging 2 ++ Code.storeSlot .staging 32 .int <:+: code := by
  intro value start
  obtain ⟨code, τ, hrun, htest⟩ := StepM.exists_of_any
    ((store (Build.var "p" (.ptr .int)) value).run start)
    (fun code τ => ((onFrame (Frame.addVariable .int "y")).run τ).1.toOption = some ⟨32, .int⟩ ∧
      Code.constant .staging 2 ++ Code.storeSlot .staging 32 .int <:+: code) (by decide +kernel)
  exact ⟨code, τ, hrun, of_decide_eq_true htest⟩

end Lower

end ArmBackend
