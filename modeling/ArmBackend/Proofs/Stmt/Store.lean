import ArmBackend.Proofs.Expr.Isolated
import ArmBackend.Proofs.Stmt.Progress

/-!
# Stores through pointers

A store writes as many bytes as the pointee has, at the address that the pointer was worth before it,
and nothing else but free storage of the frame.
-/

namespace ArmBackend

open Session (onFrame Advances onFrame_ok)

theorem Lower.storedTy_ok {ty pointee : Ty} (h : storedTy ty = .ok pointee) :
    ty = .ptr pointee ∧ 0 < pointee.size := by
  cases ty <;> simp only [storedTy, Ty.pointee?, reduceCtorEq] at h
  split at h
  case isTrue hsize =>
    cases h
    exact ⟨rfl, by simpa [Ty.storable] using hsize⟩
  case isFalse => cases h

namespace Setting

variable {S : Setting} {σ τ : Session} {f : Frame} {fs : List Frame} {s : State}

theorem After.of_releaseVariable (h : S.After τ)
    (hrun : (onFrame Frame.releaseVariable).run σ = (.ok (), τ)) : S.After σ :=
  h.of_advances (onFrame_ok hrun).1 fun hrun => (Frame.releaseVariable_peaks hrun).highWater

theorem ensures_staged {w : World} {pointer value : Slot} {loadPointer loadValue : Code} (ty : Ty)
    (hpointer : Code.copy pointer.reservation (pointer.reservation.inRegister .staging) =
      .ok loadPointer)
    (hvalue : Code.copy value.reservation (value.reservation.inRegister .operand) = .ok loadValue) :
    Code.Ensures w (loadPointer ++ loadValue ++ Code.storeThrough .operand .staging ty) s fun u =>
      ∃ t, ChangesOnly (fun reg => reg = .staging ∨ reg = .operand) (fun _ => False) s t ∧
        u = t.store ty.width (s.read pointer.reservation) (s.read value.reservation) := by
  rw [Code.ensures_append, Code.ensures_append]
  refine (Code.ensures_copy hpointer nofun fun _ _ => nofun).mono fun t₁ h₁ => ?_
  refine (Code.ensures_copy hvalue nofun fun _ _ => nofun).mono fun t₂ h₂ => ?_
  have hpointer₂ : t₂.regs .staging = s.read pointer.reservation :=
    (h₂.only.reg .staging (by rintro ⟨⟩)).trans h₁.read
  have hvalue₁ : t₁.read value.reservation = s.read value.reservation := by
    refine h₁.only.read_eq ?_ (fun reg hreg => by cases hreg) fun _ _ => id
    rintro ⟨⟩
  have hvalue₂ : t₂.regs .operand = s.read value.reservation := h₂.read.trans hvalue₁
  refine ⟨_, rfl, t₂, ?_, ?_⟩
  · exact (h₁.only.mono (fun _ => Or.inl) fun _ => id).trans (h₂.only.mono (fun _ => Or.inr) fun _ => id)
  · simp only [Address.eval, hpointer₂, hvalue₂]

/-- Neither operand disturbs the other. What is stored has the width of the pointee. -/
theorem ensures_store {pointer value : Expr} {pointee : Ty} {a v : Word} {code : Code}
    (hpointer : S.Worth pointer a) (hvalue : S.Worth value v) (hty : pointer.ty = .ptr pointee)
    (h : (Lower.store pointer value).run σ = (.ok code, τ)) (hf : σ.frames = f :: fs)
    (hafter : S.After τ)
    (hbefore : S.Before f (pointer.containsCalls || value.containsCalls) s) :
    Code.Ensures S.world code s fun u => ∃ t,
      ChangesOnly (f.Clobbers (pointer.containsCalls || value.containsCalls))
        (Scratch (s.regs .framePointer) f.position S.bound) s t ∧
      u = t.store pointee.width a (pointee.width.low v) := by
  obtain ⟨pointee', pointerSlot, pointerCode, valueSlot, valueCode, loadPointer, loadValue, σ₁, σ₂, σ₃,
    σ₄, σ₅, hstored, hpointerSlot, hpointerCode, hvalueSlot, hvalueCode, hcopy, hcopy', hrelease,
    hrelease', rfl⟩ := Lower.store_ok h
  obtain ⟨hty', -⟩ := Lower.storedTy_ok hstored
  cases hty.symm.trans hty'
  have hafter₄ := (hafter.of_releaseVariable hrelease').of_releaseVariable hrelease
  have hafter₂ : S.After σ₂ := (hafter₄.of_lower hvalueCode).of_advances (onFrame_ok hvalueSlot).1
    fun hrun => (Frame.reserveVariable_peaks hrun).highWater
  have hcalls₁ : pointer.containsCalls = true →
      (pointer.containsCalls || value.containsCalls) = true := by simp +contextual
  have hcalls₂ : value.containsCalls = true →
      (pointer.containsCalls || value.containsCalls) = true := by simp +contextual
  -- The pointer waits in its slot while the value is evaluated.
  obtain ⟨f₂, hf₂, hres₂, hposition₂, hens₂⟩ :=
    hpointer.variable_keep hpointerSlot hpointerCode hf hafter₂ hbefore hcalls₁
  rw [List.append_assoc, List.append_assoc, List.append_assoc, Code.ensures_append]
  refine hens₂.mono fun t₂ ht₂ => ?_
  obtain ⟨hread₂, honly₂⟩ := ht₂
  have hbefore₂ : S.Before f₂ (pointer.containsCalls || value.containsCalls) t₂ :=
    hbefore.of_only hres₂.within hposition₂ id (Frame.not_clobbers_framePointer _ _)
      (Frame.not_clobbers_stackPointer _ _) honly₂
  obtain ⟨f₄, hf₄, hres₄, hposition₄, hens₄⟩ :=
    hvalue.variable_keep hvalueSlot hvalueCode hf₂ hafter₄ hbefore₂ hcalls₂
  rw [Code.ensures_append, ← List.append_assoc]
  refine hens₄.mono fun t₄ ht₄ => ?_
  obtain ⟨hread₄, honly₄⟩ := ht₄
  have hlt := S.bound_lt
  have hextent := S.extent_le
  have hpointer₄ : t₄.read pointerSlot.reservation = a := by
    rw [hres₂.read_eq (by omega) honly₄, hread₂, hty, Ty.width]
    rfl
  have honly : ChangesOnly (f.Clobbers (pointer.containsCalls || value.containsCalls))
      (Scratch (s.regs .framePointer) f.position S.bound) s t₄ := by
    rw [honly₂.reg _ (Frame.not_clobbers_framePointer _ _)] at honly₄
    exact (honly₂.mono (fun _ hreg => hreg.mono hcalls₁) fun _ => id).trans
      (honly₄.mono (fun _ hreg => (hres₂.within.clobbers hreg).mono hcalls₂)
        fun _ hmem => hmem.mono hres₂.within.position (Nat.le_refl _))
  refine (ensures_staged pointee hcopy hcopy').mono fun u hu => ?_
  obtain ⟨t, hstaged, hu⟩ := hu
  refine ⟨t, ?_, ?_⟩
  · exact honly.trans (hstaged.mono (fun _ hreg => hreg.imp_right Or.inl) fun _ => False.elim)
  · rw [hu, hpointer₄, hread₄]

end Setting

namespace Frame

structure Stored (f : Frame) (high : Nat) (pointee : Ty) (a v : Word) (s t : State) : Prop where
  value : t.load pointee.width a = pointee.width.low v
  /-- Memory changes in the bytes of the pointee, and beyond the position of the frame. -/
  memory : ∀ b, ¬ (b - a).toNat < pointee.size →
    ¬ Scratch (s.regs .framePointer) f.position high b → t.mem b = s.mem b
  /-- A variable changes only where the address designates it. -/
  slots : ∀ slot ∈ f.locals,
    (∀ b, (b - a).toNat < pointee.size → ¬ slot.reservation.Covers (s.regs .framePointer) b) →
    t.read slot.reservation = s.read slot.reservation
  registers : ∀ reg, ¬ f.Clobbers false reg → t.regs reg = s.regs reg

theorem Stored.of_only {f : Frame} (hf : Valid f) {high : Nat} (hlt : f.position < 2 ^ 64)
    {pointee : Ty} (hsize : 0 < pointee.size) {a v : Word} {s t : State}
    (h : ChangesOnly (f.Clobbers false) (Scratch (s.regs .framePointer) f.position high) s t) :
    f.Stored high pointee a v s (t.store pointee.width a (pointee.width.low v)) where
  value := by rw [State.load_store, Width.low_low]
  memory := fun b hout hfree => by
    rw [State.store_mem, Ty.width_bytes hsize, if_neg hout, h.byte b hfree]
  slots := fun slot hslot hout => by
    obtain ⟨hsize', hle, hposition⟩ := hf.stacked.bounds slot (mem_slots_of_local hslot)
    have hstored : ChangesOnly (f.Clobbers false)
        (fun b => Scratch (s.regs .framePointer) f.position high b ∨ (b - a).toNat < pointee.size) s
        (t.store pointee.width a (pointee.width.low v)) :=
      (h.mono (fun _ => id) fun _ => Or.inl).trans
        (.store fun b hb => Or.inr (by rwa [Ty.width_bytes hsize] at hb))
    refine hstored.read_eq (not_clobbers_framePointer f false) (fun reg hreg => by cases hreg)
      fun b hb hmem => ?_
    rcases hmem with hscratch | hmem
    · have := (Slot.covers_iff hsize' hle (by omega)).mp hb
      exact absurd hscratch.1 (by omega)
    · exact hout b hmem hb
  registers := fun reg hreg => h.reg reg hreg

end Frame

/-- The code of a store through a pointer runs to its end. It sets as many bytes as the pointee has, at
the address that the pointer is worth before, to the low bytes of what the value is worth before. -/
theorem Lower.exec_store {pointer value : Expr} {pointee : Ty} (hpointer : pointer.Built)
    (hvalue : value.Built) (hpcalls : pointer.containsCalls = false)
    (hvcalls : value.containsCalls = false) (hpfree : pointer.arrayFree = true)
    (hvfree : value.arrayFree = true) (hty : pointer.ty = .ptr pointee) {f g : Frame}
    {fs gs : List Frame} {σ τ : Session} {code : Code} (hf : f.Reachable) (hσ : σ.frames = f :: fs)
    (h : (Lower.store pointer value).run σ = (.ok code, τ)) (hτ : τ.frames = g :: gs)
    (hlt : g.highWater < 2 ^ 64) (symbol : Label → Word) (s : State) {a v : Word}
    (ha : pointer.eval (f.context τ.data g.highWater symbol s) = some a)
    (hv : value.eval (f.context τ.data g.highWater symbol s) = some v) :
    ∃ t, code.exec symbol s = some t ∧ f.Stored g.highWater pointee a v s t := by
  have hvalid := hf.valid
  obtain ⟨g', hg', hpeaks⟩ := (store_peaks h).frames hσ
  cases hτ.symm.trans hg'
  have hposition : f.position ≤ g.highWater := Nat.le_trans hvalid.highWater hpeaks.highWater
  have hcalls : (pointer.containsCalls || value.containsCalls) = false := by
    rw [hpcalls, hvcalls, Bool.or_self]
  have hbefore : (f.setting τ hlt symbol s).Before f false s :=
    Frame.setting_before hvalid hlt hposition
  rw [← hcalls] at hbefore
  have hens := Setting.ensures_store
    ⟨ha, hpfree, hpointer.wellTyped, Setting.evaluates pointer hpfree hpointer.wellTyped ha⟩
    ⟨hv, hvfree, hvalue.wellTyped, Setting.evaluates value hvfree hvalue.wellTyped hv⟩
    hty h hσ (Frame.setting_after hτ hlt) hbefore
  rw [hcalls] at hens
  obtain ⟨u, hu, t, honly, rfl⟩ := Code.exec_of_ensures hens
  obtain ⟨pointee', _, _, _, _, _, _, _, _, _, _, _, hstored, -⟩ := Lower.store_ok h
  obtain ⟨hty', hsize⟩ := Lower.storedTy_ok hstored
  cases hty.symm.trans hty'
  exact ⟨_, hu, .of_only hvalid (by omega) hsize honly⟩

/-- `*p = 0x1234` where `p` is the first variable, a pointer to a byte that holds 0. The byte at the
address 0 becomes the low one of the value, and the byte after it stays. -/
theorem Lower.exec_store_byte :
    let pointer : Expr := .var "p" (.ptr .char)
    let value : Expr := .literal (.int 0x1234) .int
    let f := Frame.Op.apply {} (.addVariable (.ptr .char) "p")
    let start : Session := { Session.start {} with frames := [f] }
    let s : State := ⟨fun _ => 4096, fun _ => 0, Flags.compare 0 0⟩
    ∃ code t, ((Lower.store pointer value).run start).1 = .ok code ∧
      code.exec (fun _ => 0) s = some t ∧ t.load .byte 0 = 0x34 ∧ t.mem 1 = 0 := by
  intro pointer value f start s
  obtain ⟨code, τ, hrun, htest⟩ := StepM.exists_of_any ((Lower.store pointer value).run start)
    (fun _ τ => τ.frames = [{ f with highWater := 17 }]) (by decide +kernel)
  have hpointer : (f.context {} 17 (fun _ => 0) s).value "p" (.ptr .char) = some 0 := by decide
  obtain ⟨t, hexec, hstored⟩ :=
    exec_store (.var "p" (.ptr .char)) (.literal (.int 0x1234)) rfl rfl rfl rfl rfl
      (.apply (.addVariable (.ptr .char) "p") .empty) (σ := start) rfl hrun (of_decide_eq_true htest)
      (by decide) (fun _ => 0) s (v := 0x1234) hpointer rfl
  exact ⟨code, t, by rw [hrun], hexec, hstored.value, hstored.memory 1 (by decide) (by decide)⟩

end ArmBackend
