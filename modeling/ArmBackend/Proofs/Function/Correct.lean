import ArmBackend.Proofs.Function.Body

/-!
# Functions are compiled correctly

A function that is called with its arguments in the argument registers returns to its caller with the
result that its body has. It leaves the stack of the caller and the registers that it must keep as they
were.
-/

namespace ArmBackend

open Session (Advances)

namespace Activation.Moves

variable {A : Activation} {s t : State}

theorem calleeSaved (h : A.Moves s t) (index : Fin 10) :
    t.regs (.calleeSaved index) = s.regs (.calleeSaved index) :=
  h.reg _ fun hreg => hreg.elim nofun (Frame.not_clobbers_calleeSaved _ _ _)

theorem linkRegister (h : A.Moves s t) (hcalls : A.calls = false) :
    t.regs .linkRegister = s.regs .linkRegister :=
  h.reg _ fun hreg => hreg.elim nofun (hcalls ▸ Frame.not_clobbers_linkRegister _)

theorem byte (h : A.Moves s t) (hbound : A.setting.bound = (s.regs .framePointer).toNat) {a : Word}
    (ha : (s.regs .framePointer).toNat ≤ a.toNat) : t.mem a = s.mem a := by
  refine ChangesOnly.byte h a fun hmem => ?_
  have hlow := hmem.1
  have hhigh := hmem.2
  have := a.isLt
  rw [below, BitVec.toNat_sub] at hlow hhigh
  omega

end Activation.Moves

namespace FrameLayout

variable {layout : FrameLayout} {A : Activation} {s t u v : State}

namespace Opens

theorem framePointer_toNat (h : layout.Opens s t) (hroom : 16 ≤ (s.regs .stackPointer).toNat) :
    (t.regs .framePointer).toNat + 16 = (s.regs .stackPointer).toNat := by
  rw [h.framePointer]
  exact State.pushed_pointer_toNat hroom

theorem aligned (h : layout.Opens s t) (haligned : s.StackAligned) (hmod : layout.localsSize % 16 = 0)
    (hroom : 16 ≤ (s.regs .stackPointer).toNat) : t.StackAligned := by
  have hfp := h.framePointer_toNat hroom
  have hsize := (t.regs .framePointer).isLt
  rw [State.StackAligned] at haligned ⊢
  rw [h.stackPointer, BitVec.toNat_sub, BitVec.toNat_ofNat]
  omega

theorem arg (h : layout.Opens s t) {reg : Register} (hreg : reg ∈ Register.argBank) :
    t.regs reg = s.regs reg := by
  obtain ⟨index, rfl⟩ := Register.mem_argBank.mp hreg
  exact h.other (.arg index) (by rintro ⟨⟩) (by rintro ⟨⟩) (by rintro ⟨⟩)

theorem keeps_of_moves (h : layout.Opens s t) (hroom : 16 ≤ (s.regs .stackPointer).toNat)
    (hbound : A.setting.bound = (t.regs .framePointer).toNat) (hmoves : A.Moves t u) :
    layout.Keeps s u where
  framePointer := hmoves.framePointer.trans h.framePointer
  stackPointer := by
    rw [hmoves.stackPointer, hmoves.framePointer]
    exact h.stackPointer
  record a ha := by
    have hfp := h.framePointer_toNat hroom
    have hle : (t.regs .framePointer).toNat ≤ a.toNat := by
      have ha' := a.isLt
      have hs := (s.regs .stackPointer).isLt
      rw [← h.framePointer, BitVec.toNat_sub] at ha
      omega
    rw [hmoves.byte hbound hle, h.mem]

theorem answers {result : Option Word} (h : layout.Opens s t) (hroom : 16 ≤ (s.regs .stackPointer).toNat)
    (hbound : A.setting.bound = (t.regs .framePointer).toNat) (hmoves : A.Moves t u)
    (hcloses : Closes s u v) (hvalue : ∀ w, result = some w → u.regs .result = w) :
    Answers result s v where
  result w hw := by
    rw [hcloses.other .result (by decide) (by decide) (by decide) (by decide)]
    exact hvalue w hw
  returns := by
    have hfp := h.framePointer_toNat hroom
    refine ⟨hcloses.stackPointer, fun a ha => ?_⟩
    rw [hcloses.mem, hmoves.byte hbound (by omega), h.mem]
    exact State.pushPair_mem hroom ha
  kept := by
    rintro reg (rfl | ⟨index, rfl⟩)
    · exact hcloses.framePointer
    · rw [hcloses.other (.calleeSaved index) (by rintro ⟨⟩) (by rintro ⟨⟩) (by rintro ⟨⟩)
        (by rintro ⟨⟩), hmoves.calleeSaved]
      exact h.other (.calleeSaved index) (by rintro ⟨⟩) (by rintro ⟨⟩) (by rintro ⟨⟩)

end Opens

end FrameLayout

namespace Function

variable {function : Function} {σ τ : Session} {code : Code}

def activation (function : Function) {image : Image} {ctx : Context} {room : Nat} (typed : ctx.Typed)
    (serves : image.linked.Serves ctx ({} : Options).functionLabel room) {extent bound : Nat}
    (extent_le : extent ≤ bound) (bound_lt : bound < 2 ^ 64) : Activation where
  image
  setting :=
    { world := image.linked, ctx, label := ({} : Options).functionLabel, room, extent, bound, typed,
      serves, extent_le, bound_lt }
  signature := function.signature
  calls := function.containsCalls
  linked := rfl

/-- What a function relies on where it is entered. -/
structure Entered (args : List Word) (size : Nat) (s : State) : Prop where
  aligned : s.StackAligned
  /-- The stack has `size` bytes left. -/
  room : size ≤ (s.regs .stackPointer).toNat
  args : ∀ arg ∈ Register.argBank.zip args, s.regs arg.1 = arg.2

variable {image : Image} {ctx : Context} {room size pc fuel : Nat} {s : State} {args : List Word}
variable {result : Option Word} {layout : FrameLayout} {bodyCode : Code} {frame : Frame}
variable {frames : List Frame}

theorem activation_after (typed : ctx.Typed)
    (serves : image.linked.Serves ctx ({} : Options).functionLabel room)
    (houter : ∀ stmt ∈ function.body, stmt.Outer) (hoptions : σ.options = {})
    (hcode : function.lowerBody.run σ = (.ok bodyCode, τ)) (hg : τ.frames = frame :: frames)
    (htexts : ctx.Texts image.linked τ.data) {extent bound : Nat} (hextent : extent ≤ bound)
    (hbound : bound < 2 ^ 64) (hpeak : frame.highWater ≤ extent) :
    (function.activation typed serves hextent hbound).setting.After τ where
  peak hg' := by
    cases hg.symm.trans hg'
    exact hpeak
  texts := htexts
  label := by
    rw [(lowerBody_extends houter hcode).options, hoptions]
    rfl

theorem reaches_return_saved (typed : ctx.Typed)
    (serves : image.linked.Serves ctx ({} : Options).functionLabel room)
    (houter : ∀ stmt ∈ function.body, stmt.Outer) (hoptions : σ.options = {})
    (hcode : function.lowerBody.run σ = (.ok bodyCode, τ)) (hf : σ.frames = {} :: frames)
    (hg : τ.frames = frame :: frames)
    (hlayout : layout = FrameLayout.ofHighWater frame.highWater function.containsCalls)
    (hsaves : layout.savesRecord = true) (htexts : ctx.Texts image.linked τ.data)
    (hhosts : image.Hosts pc (layout.prologue ++ bodyCode ++
      .label (.returnOf function.name) :: layout.epilogue))
    (heval : function.eval ctx fuel args = some result)
    (hentered : Entered args (layout.totalSize + Setting.saveRoom + room) s) :
    image.Reaches pc s (s.regs .linkRegister).toNat (Answers result s) := by
  obtain ⟨haligned, hroom, hargs⟩ := hentered
  have htotal : layout.totalSize = layout.localsSize + 16 := by
    rw [FrameLayout.totalSize, hsaves]
    rfl
  have hmod : layout.localsSize % 16 = 0 := by
    rw [hlayout]
    exact alignUp_mod _ _
  have hrecord : 16 ≤ (s.regs .stackPointer).toNat := by omega
  obtain ⟨hhosts, htail⟩ := hhosts.append
  obtain ⟨hprologue, hbody⟩ := hhosts.append
  have hreturn := htail.label
  obtain ⟨hlabelLine, hepilogue⟩ := htail.cons
  rw [FrameLayout.epilogue_eq] at hepilogue
  obtain ⟨hclose, hret⟩ := hepilogue.append
  have hretLine := hret.cons.1
  rw [List.length_append, ← Nat.add_assoc] at hreturn hlabelLine hclose hretLine
  refine (Image.reaches_of_ensures hprologue.stands (FrameLayout.ensures_prologue hsaves haligned)).trans
    fun s₁ hopens => ?_
  -- The body runs on its own part of the stack.
  have hfp := hopens.framePointer_toNat hrecord
  have hbound : layout.localsSize ≤ (s₁.regs .framePointer).toNat := by omega
  let A := function.activation typed serves hbound (s₁.regs .framePointer).isLt
  have hafter : A.setting.After τ := activation_after typed serves houter hoptions hcode hg htexts hbound
    (s₁.regs .framePointer).isLt (hlayout ▸ FrameLayout.le_localsSize _ _)
  have hready : A.setting.Ready s₁ := by
    refine ⟨hopens.aligned haligned hmod hrecord, hopens.stackPointer, rfl, ?_⟩
    rw [show A.setting.extent = layout.localsSize from rfl, show A.setting.room = room from rfl,
      show A.setting.bound = (s₁.regs .framePointer).toNat from rfl]
    omega
  have hargs₁ : ∀ arg ∈ Register.argBank.zip args, s₁.regs arg.1 = arg.2 := fun arg harg =>
    (hopens.arg (List.of_mem_zip harg).1).trans (hargs arg harg)
  have hrun := Activation.Stands.reaches_body (A := A) rfl id houter hoptions hcode hf hafter hbody
    hreturn heval (fun _ => hready) hargs₁
  refine hrun.trans fun u hu => .of_label hlabelLine ?_
  obtain ⟨hvalue, hmoves⟩ := hu
  have hens := FrameLayout.ensures_close (w := image.linked) hsaves haligned
    (hopens.keeps_of_moves hrecord rfl hmoves)
  refine (Image.reaches_of_ensures hclose.stands hens).trans fun t hcloses => ?_
  rw [← hcloses.linkRegister]
  exact .of_ret hretLine (.refl (hopens.answers hrecord rfl hmoves hcloses hvalue))

theorem reaches_return_bare (typed : ctx.Typed)
    (serves : image.linked.Serves ctx ({} : Options).functionLabel room)
    (houter : ∀ stmt ∈ function.body, stmt.Outer) (hoptions : σ.options = {})
    (hcode : function.lowerBody.run σ = (.ok bodyCode, τ)) (hf : σ.frames = {} :: frames)
    (hg : τ.frames = frame :: frames)
    (hlayout : layout = FrameLayout.ofHighWater frame.highWater function.containsCalls)
    (hsaves : layout.savesRecord = false) (htexts : ctx.Texts image.linked τ.data)
    (hhosts : image.Hosts pc (layout.prologue ++ bodyCode ++
      .label (.returnOf function.name) :: layout.epilogue))
    (heval : function.eval ctx fuel args = some result) (hentered : Entered args size s) :
    image.Reaches pc s (s.regs .linkRegister).toNat (Answers result s) := by
  have hbare := FrameLayout.bare hlayout hsaves
  have hcalls := hbare.calls
  rw [hbare.prologue, List.nil_append, hbare.epilogue] at hhosts
  obtain ⟨hbody, htail⟩ := hhosts.append
  obtain ⟨hlabelLine, hret⟩ := htail.cons
  let A := function.activation typed serves (Nat.le_refl 0) (Nat.two_pow_pos 64)
  have hpeak : frame.highWater ≤ 0 := by
    rw [← hbare.localsSize, hlayout]
    exact FrameLayout.le_localsSize _ _
  have hafter : A.setting.After τ := activation_after typed serves houter hoptions hcode hg htexts
    (Nat.le_refl 0) (Nat.two_pow_pos 64) hpeak
  have hready : A.calls = true → A.setting.Ready s := fun h =>
    absurd (hcalls.symm.trans h) (by decide)
  have hrun := Activation.Stands.reaches_body (A := A) rfl id houter hoptions hcode hf hafter hbody
    htail.label heval hready hentered.args
  refine hrun.trans fun u hu => .of_label hlabelLine ?_
  obtain ⟨hvalue, hmoves⟩ := hu
  rw [← hmoves.linkRegister hcalls]
  refine .of_ret hret.cons.1 (.refl ⟨hvalue, ⟨hmoves.stackPointer, fun a _ => ?_⟩, ?_⟩)
  · exact ChangesOnly.byte hmoves a fun hmem => Nat.not_lt.mpr hmem.2 hmem.1
  · rintro reg (rfl | ⟨index, rfl⟩)
    · exact hmoves.framePointer
    · exact hmoves.calleeSaved index

theorem address_symbol (hoptions : σ.options = {}) (hcode : function.compile.run σ = (.ok code, τ))
    (hhosts : image.Hosts pc code) :
    image.code.address? (({} : Options).functionLabel function.name) = some (pc + 2) := by
  obtain ⟨bodyCode, frame, layout, σ₁, frames, hbody, -, -, -, rfl⟩ := compile_ok hcode
  have hoptions₁ : σ₁.options = {} := (lowerBody_peaks hbody).options.trans hoptions
  rw [List.append_assoc, List.append_assoc, hoptions₁] at hhosts
  exact hhosts.append.1.cons.2.cons.2.label

/-- A function that is entered at its symbol returns with its result, given enough of the stack. -/
theorem reaches_return (typed : ctx.Typed)
    (serves : image.linked.Serves ctx ({} : Options).functionLabel room)
    (houter : ∀ stmt ∈ function.body, stmt.Outer) (hoptions : σ.options = {})
    (hcode : function.compile.run σ = (.ok code, τ)) (hsound : σ.stats.Sound)
    (htexts : ctx.Texts image.linked τ.data) (hhosts : image.Hosts pc code)
    (heval : function.eval ctx fuel args = some result)
    (hentered : Entered args (τ.stats.largestFrame + Setting.saveRoom + room) s) :
    image.Reaches (pc + 2) s (s.regs .linkRegister).toNat (Answers result s) := by
  obtain ⟨bodyCode, frame, layout, σ₁, frames, hbody, hg, hlayout, rfl, rfl⟩ := compile_ok hcode
  have hpeaks := lowerBody_peaks hbody
  obtain ⟨g, hg', -⟩ := hpeaks.frames rfl
  cases hg.symm.trans hg'
  have hoptions₀ : ({ σ with frames := {} :: σ.frames } : Session).options = {} := hoptions
  have hoptions₁ : σ₁.options = {} := hpeaks.options.trans hoptions
  rw [List.append_assoc, List.append_assoc, hoptions₁] at hhosts
  obtain ⟨hheader, hhosts⟩ := hhosts.append
  obtain ⟨hlabelLine, -⟩ := hheader.cons.2.cons.2.cons
  rw [← List.append_assoc] at hhosts
  refine .of_label hlabelLine ?_
  cases hsaves : layout.savesRecord with
  | false =>
    exact reaches_return_bare typed serves houter hoptions₀ hbody rfl hg hlayout hsaves htexts hhosts
      heval hentered
  | true =>
    refine reaches_return_saved typed serves houter hoptions₀ hbody rfl hg hlayout hsaves htexts hhosts
      heval ⟨hentered.aligned, Nat.le_trans ?_ hentered.room, hentered.args⟩
    have hle := (Stats.recordFunction_largestFrame σ₁.stats function.name frame.spills layout.totalSize
      (hpeaks.sound hsound)).1
    exact Nat.add_le_add_right (Nat.add_le_add_right hle _) _

end Function

end ArmBackend
