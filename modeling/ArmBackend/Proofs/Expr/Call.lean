import ArmBackend.Proofs.Expr.Correct

/-!
# Calls are lowered correctly

Every argument is in its register at the branch, whichever arguments call out themselves, and the
temporaries that are live come back after it.
-/

namespace ArmBackend

open Session (onFrame Advances onFrame_ok)
open List (Forall₂)

namespace Lower

/-- The registers and the values of the arguments that call out, or of those that do not. -/
def shares (calls : Bool) : List Expr → List Register → List Word → List (Register × Word)
  | arg :: args, reg :: regs, v :: values =>
    if arg.containsCalls = calls then (reg, v) :: shares calls args regs values
    else shares calls args regs values
  | _, _, _ => []

theorem mem_zip_of_mem_shares {calls : Bool} {args : List Expr} {regs : List Register}
    {values : List Word} {x : Register × Word} (h : x ∈ shares calls args regs values) :
    x ∈ regs.zip values := by
  induction args generalizing regs values with
  | nil => simp [shares] at h
  | cons arg args ih =>
    cases regs with
    | nil => simp [shares] at h
    | cons reg regs =>
      cases values with
      | nil => simp [shares] at h
      | cons v values =>
        simp only [shares] at h
        split at h
        · rcases List.mem_cons.mp h with rfl | h
          · exact List.mem_cons_self
          · exact List.mem_cons_of_mem _ (ih h)
        · exact List.mem_cons_of_mem _ (ih h)

theorem mem_shares_of_mem_zip {R : Expr → Word → Prop} {args : List Expr} {regs : List Register}
    {values : List Word} (hargs : Forall₂ R args values) {x : Register × Word}
    (h : x ∈ regs.zip values) : x ∈ shares true args regs values ∨ x ∈ shares false args regs values := by
  induction hargs generalizing regs with
  | nil => simp at h
  | @cons arg v args values _ _ ih =>
    cases regs with
    | nil => simp at h
    | cons reg regs =>
      simp only [shares]
      rcases List.mem_cons.mp h with rfl | h
      · cases arg.containsCalls <;> simp
      · rcases ih h with h | h
        · left
          split
          · exact List.mem_cons_of_mem _ h
          · exact h
        · right
          split
          · exact List.mem_cons_of_mem _ h
          · exact h

theorem shares_disjoint {args : List Expr} {regs : List Register} {values : List Word}
    (hregs : regs.Nodup) {x y : Register × Word} (hx : x ∈ shares true args regs values)
    (hy : y ∈ shares false args regs values) : x.1 ≠ y.1 := by
  induction args generalizing regs values with
  | nil => simp [shares] at hx
  | cons arg args ih =>
    cases regs with
    | nil => simp [shares] at hx
    | cons reg regs =>
      cases values with
      | nil => simp [shares] at hx
      | cons v values =>
        obtain ⟨hnot, hregs⟩ := List.nodup_cons.mp hregs
        have hmem : ∀ {calls : Bool} {z : Register × Word},
            z ∈ shares calls args regs values → z.1 ∈ regs := fun hz =>
          (List.of_mem_zip (mem_zip_of_mem_shares hz)).1
        simp only [shares] at hx hy
        cases hcall : arg.containsCalls with
        | true =>
          simp only [hcall, if_true, Bool.true_eq_false, if_false] at hx hy
          rcases List.mem_cons.mp hx with rfl | hx
          · exact fun (heq : reg = y.1) => hnot (heq ▸ hmem hy)
          · exact ih hregs hx hy
        | false =>
          simp only [hcall, if_true, Bool.false_eq_true, if_false] at hx hy
          rcases List.mem_cons.mp hy with rfl | hy
          · exact fun (heq : x.1 = reg) => hnot (heq ▸ hmem hx)
          · exact ih hregs hx hy

theorem shares_fst_nodup {calls : Bool} {args : List Expr} {regs : List Register}
    {values : List Word} (hregs : regs.Nodup) :
    ((shares calls args regs values).map Prod.fst).Nodup := by
  induction args generalizing regs values with
  | nil => exact .nil
  | cons arg args ih =>
    cases regs with
    | nil => exact .nil
    | cons reg regs =>
      cases values with
      | nil => exact .nil
      | cons v values =>
        obtain ⟨hnot, hregs⟩ := List.nodup_cons.mp hregs
        simp only [shares]
        split
        · refine List.nodup_cons.mpr ⟨fun hmem => hnot ?_, ih hregs⟩
          obtain ⟨z, hz, rfl⟩ := List.mem_map.mp hmem
          exact (List.of_mem_zip (mem_zip_of_mem_shares hz)).1
        · exact ih hregs

end Lower

namespace Setting

variable {S : Setting} {σ τ : Session} {f : Frame} {fs : List Frame} {s : State}

/-- The outcome of evaluating arguments into temporaries: each of these holds its value, and the frame
`g` has them beside what `f` has. -/
structure Shields (S : Setting) (f g : Frame) (shielded : List (Reservation × Register))
    (share : List (Register × Word)) (s t : State) : Prop where
  within : f.Within g
  position : g.position ≤ S.extent
  held : Forall₂ (fun p x => p.2 = x.1 ∧ t.read p.1 = x.2) shielded share
  reserved : ∀ p ∈ shielded, ∃ ty, Reserves f ty p.1 g
  only : ChangesOnly (f.Clobbers true) (Scratch (s.regs .framePointer) f.position S.bound) s t

theorem Shields.nil (h : f.position ≤ S.extent) : Shields S f f [] [] s s :=
  ⟨.refl f, h, .nil, nofun, .refl _ _ s⟩

theorem Shields.cons {f₁ g : Frame} {res : Reservation} {reg : Register} {ty : Ty} {v : Word}
    {shielded : List (Reservation × Register)} {share : List (Register × Word)} {t u : State}
    (hres : Reserves f ty res f₁) (hread : t.read res = v)
    (honly : ChangesOnly (f.Clobbers true) (Scratch (s.regs .framePointer) f.position S.bound) s t)
    (h : Shields S f₁ g shielded share t u) :
    Shields S f g ((res, reg) :: shielded) ((reg, v) :: share) s u := by
  have hfp := honly.reg _ (Frame.not_clobbers_framePointer f true)
  have hlt := S.bound_lt
  have hextent := S.extent_le
  have hposition := h.within.position
  have hg := h.position
  have hres₁ : u.read res = t.read res := hres.read_eq (by omega) h.only
  refine ⟨hres.within.trans h.within, h.position, .cons ⟨rfl, hres₁.trans hread⟩ h.held,
    fun p hp => ?_, honly.trans (h.only.mono (fun _ => hres.within.clobbers) fun a ha => ?_)⟩
  · rcases List.mem_cons.mp hp with rfl | hp
    · exact ⟨ty, hres.mono (.refl f) h.within⟩
    · obtain ⟨ty', hp'⟩ := h.reserved p hp
      exact ⟨ty', hp'.mono hres.within (.refl g)⟩
  · rw [hfp] at ha
    exact ha.mono hres.within.position (Nat.le_refl _)

theorem Worth.keeps {args : List Expr} {values : List Word} (hargs : Forall₂ S.Worth args values) :
    ∀ arg ∈ args.map Expr.operand, arg.Keeps Frame.Rests := by
  induction hargs with
  | nil => exact nofun
  | cons harg _ ih =>
    intro operand hoperand
    rcases List.mem_cons.mp hoperand with rfl | hoperand
    · exact Expr.operand_rests harg.arrayFree
    · exact ih operand hoperand

theorem ensures_shield {args : List Expr} {regs : List Register} {values : List Word}
    {code : Code} {shielded : List (Reservation × Register)} {calls : Bool} {g : Frame}
    (hargs : Forall₂ S.Worth args values)
    (h : (Lower.shield (args.map Expr.operand) regs).run σ = (.ok (code, shielded), τ))
    (hf : σ.frames = f :: fs) (hg : τ.frames = g :: fs) (hafter : S.After τ)
    (hbefore : S.Before f calls s) (hcalls : ∀ arg ∈ args, arg.containsCalls = true → calls = true) :
    Code.Ensures S.world code s
      (Shields S f g shielded (Lower.shares true args regs values) s) := by
  induction hargs generalizing regs σ f s code shielded with
  | nil =>
    simp only [List.map_nil, Lower.shield] at h
    cases h
    cases hf.symm.trans hg
    exact .nil hbefore.position
  | @cons arg v args values harg hrest ih =>
    have hcalls' : ∀ arg ∈ args, arg.containsCalls = true → calls = true := fun other hother =>
      hcalls other (List.mem_cons_of_mem _ hother)
    cases regs with
    | nil =>
      cases h
      cases hf.symm.trans hg
      exact .nil hbefore.position
    | cons reg regs =>
      cases hcall : arg.containsCalls with
      | false =>
        rw [List.map_cons, Lower.shield_quiet _ _ _ hcall] at h
        simp only [Lower.shares, hcall, Bool.false_eq_true, if_false]
        exact ih h hf hbefore hcalls'
      | true =>
        obtain ⟨res, argCode, restCode, shielded', σ₁, σ₂, hres, hcode, htail, heq⟩ :=
          Lower.shield_calls_ok hcall h
        cases heq
        have hafter₂ : S.After σ₂ :=
          hafter.of_advances (Lower.shield_advances Frame.growth_rests (Worth.keeps hrest) htail)
            And.right
        obtain ⟨f₁, hf₁, hreserves, hpos₁, hens₁⟩ :=
          harg.temp harg.low hres hcode hf hafter₂ hbefore (hcalls arg List.mem_cons_self)
        simp only [Lower.shares, hcall, if_true, Code.ensures_append]
        refine hens₁.mono fun t ht => ?_
        obtain ⟨hread, honly⟩ := ht
        rw [hcall] at honly
        have hbefore₁ : S.Before f₁ calls t :=
          hbefore.of_only hreserves.within hpos₁ id (Frame.not_clobbers_framePointer _ _)
            (Frame.not_clobbers_stackPointer _ _) honly
        exact (ih htail hf₁ hbefore₁ hcalls').mono fun u hu => .cons hreserves hread honly hu

structure Directs (S : Setting) (f : Frame) (regs : List Register)
    (share : List (Register × Word)) (s t : State) : Prop where
  set : ∀ x ∈ share, t.regs x.1 = x.2
  only : ChangesOnly (fun reg => reg ∈ regs ∨ f.Clobbers false reg)
    (Scratch (s.regs .framePointer) f.position S.bound) s t

theorem not_clobbers_arg {g : Frame} {reg : Register} (h : reg ∈ Register.argBank) :
    ¬ g.Clobbers false reg := by
  obtain ⟨index, rfl⟩ := Register.mem_argBank.mp h
  simp [Frame.Clobbers, Register.staging, Register.operand, Register.mem_tempBank]

theorem fits_arg {reg : Register} (h : reg ∈ Register.argBank) (ty : Ty) (f : Frame) :
    (Reservation.ofReg ty reg).Fits f := by
  obtain ⟨index, rfl⟩ := Register.mem_argBank.mp h
  refine ⟨by simp [Register.reserved, Register.operand], fun hbank => ?_⟩
  simp [Register.mem_tempBank] at hbank

theorem ensures_direct {args : List Expr} {regs : List Register} {values : List Word}
    {code : Code} (hargs : Forall₂ S.Worth args values) (hregs : regs.Nodup)
    (hbank : ∀ reg ∈ regs, reg ∈ Register.argBank)
    (h : (Lower.direct (args.map Expr.operand) regs).run σ = (.ok code, τ))
    (hf : σ.frames = f :: fs) (hafter : S.After τ) (hbefore : S.Before f false s) :
    Code.Ensures S.world code s
      (Directs S f regs (Lower.shares false args regs values) s) := by
  induction hargs generalizing regs σ f s code with
  | nil =>
    simp only [List.map_nil, Lower.direct] at h
    cases h
    exact ⟨List.forall_mem_nil _, .refl _ _ s⟩
  | @cons arg v args values harg hrest ih =>
    cases regs with
    | nil =>
      cases h
      exact ⟨List.forall_mem_nil _, .refl _ _ s⟩
    | cons reg regs =>
      obtain ⟨hnot, hregs⟩ := List.nodup_cons.mp hregs
      have hreg : reg ∈ Register.argBank := hbank reg List.mem_cons_self
      have hbank : ∀ reg ∈ regs, reg ∈ Register.argBank := fun other hother =>
        hbank other (List.mem_cons_of_mem _ hother)
      cases hcall : arg.containsCalls with
      | true =>
        rw [List.map_cons, Lower.direct_calls _ _ _ hcall] at h
        simp only [Lower.shares, hcall, Bool.true_eq_false, if_false]
        exact (ih hregs hbank h hf hbefore).mono fun t ht =>
          ⟨ht.set, ht.only.mono (fun _ => Or.imp_left (List.mem_cons_of_mem _)) fun _ => id⟩
      | false =>
        obtain ⟨argCode, restCode, σ₁, hcode, htail, rfl⟩ := Lower.direct_quiet_ok hcall h
        have hafter₁ : S.After σ₁ :=
          hafter.of_advances (Lower.direct_advances Frame.growth_rests (Worth.keeps hrest) htail)
            Frame.Rests.highWater
        obtain ⟨f₁, hf₁, hrest₁⟩ := (Expr.lower_rests harg.arrayFree hcode).frames hf
        have hlands := harg.evaluates hcode hf hafter₁ (fits_arg hreg arg.ty f)
          (arg.admits_ofReg f _ _) (hcall ▸ hbefore)
        simp only [Lower.shares, hcall, if_true, Code.ensures_append]
        rw [hcall] at hlands
        refine hlands.mono fun t ht => ?_
        have honly : ChangesOnly (fun other => other = reg ∨ f.Clobbers false other)
            (Scratch (s.regs .framePointer) f.position S.bound) s t :=
          ht.only.mono (fun other => Or.imp_left fun h => (Location.reg.inj h).symm) fun a ha =>
            ha.resolve_left id
        have hfp : ¬ (.framePointer = reg ∨ f.Clobbers false .framePointer) := by
          rintro (rfl | h)
          · simp [Register.mem_argBank] at hreg
          · exact Frame.not_clobbers_framePointer _ _ h
        have hsp : ¬ (.stackPointer = reg ∨ f.Clobbers false .stackPointer) := by
          rintro (rfl | h)
          · simp [Register.mem_argBank] at hreg
          · exact Frame.not_clobbers_stackPointer _ _ h
        have hbefore₁ : S.Before f₁ false t :=
          hbefore.of_only hrest₁.within (hrest₁.position ▸ hbefore.position) id hfp hsp honly
        refine (ih hregs hbank htail hf₁ hbefore₁).mono fun u hu => ⟨fun x hx => ?_, ?_⟩
        · rcases List.mem_cons.mp hx with rfl | hx
          · have hkept : u.regs reg = t.regs reg :=
              hu.only.reg reg fun h => h.elim hnot (not_clobbers_arg hreg)
            exact hkept.trans ht.read
          · exact hu.set x hx
        · refine (honly.mono (fun other => Or.imp_left fun h => ?_) fun _ => id).trans
            (hu.only.mono (fun other => ?_) fun a ha => ?_)
          · exact h ▸ List.mem_cons_self
          · exact Or.imp (List.mem_cons_of_mem _) hrest₁.within.clobbers
          · rw [honly.reg _ hfp, hrest₁.position] at ha
            exact ha

theorem clobbers_arg {g : Frame} {reg : Register} (h : reg ∈ Register.argBank) :
    g.Clobbers true reg :=
  Or.inr (Or.inr (Or.inr ⟨rfl, Or.inl h⟩))

theorem ensures_unshield {shielded : List (Reservation × Register)}
    {share : List (Register × Word)} {code : Code} {w : World} {g : Frame} {s₀ : State}
    (h : Lower.unshield shielded = .ok code)
    (hheld : Forall₂ (fun p x => p.2 = x.1 ∧ s₀.read p.1 = x.2) shielded share)
    (hsame : ∀ p ∈ shielded, s.read p.1 = s₀.read p.1)
    (hres : ∀ p ∈ shielded, ∃ ty, Reserves f ty p.1 g) (hlt : g.position < 2 ^ 64)
    (hnodup : (share.map Prod.fst).Nodup)
    (hbank : ∀ reg ∈ share.map Prod.fst, reg ∈ Register.argBank) :
    Code.Ensures w code s fun t => (∀ x ∈ share, t.regs x.1 = x.2) ∧
      ChangesOnly (· ∈ share.map Prod.fst) (fun _ => False) s t := by
  induction hheld generalizing s code with
  | nil =>
    cases h
    exact ⟨nofun, .refl _ _ s⟩
  | @cons p x shielded share hp _ ih =>
    obtain ⟨res, reg⟩ := p
    obtain ⟨reg', v⟩ := x
    obtain ⟨rfl, hread⟩ := hp
    obtain ⟨copyCode, restCode, hcopy, hrest, rfl⟩ := Lower.unshield_cons_ok h
    obtain ⟨hnot, hnodup⟩ := List.nodup_cons.mp hnodup
    have hreg := hbank reg List.mem_cons_self
    have hne : Location.reg reg ≠ .reg .framePointer := by
      rintro ⟨⟩
      simp [Register.mem_argBank] at hreg
    rw [Code.ensures_append]
    refine (Code.ensures_copy hcopy hne fun _ _ => nofun).mono fun t ht => ?_
    have honly : ChangesOnly (· = reg) (fun _ => False) s t := ht.only
    have hkept : ∀ p ∈ shielded, t.read p.1 = s₀.read p.1 := fun p hp => by
      obtain ⟨ty, hp'⟩ := hres p (List.mem_cons_of_mem _ hp)
      have hfree : ChangesOnly (g.Clobbers true) (Scratch (s.regs .framePointer) g.position 0) s t :=
        honly.mono (fun other h => clobbers_arg (h ▸ hreg)) fun _ => False.elim
      exact (hp'.read_eq hlt hfree).trans (hsame p (List.mem_cons_of_mem _ hp))
    refine (ih hrest hkept (fun p hp => hres p (List.mem_cons_of_mem _ hp)) hnodup
      fun other hother => hbank other (List.mem_cons_of_mem _ hother)).mono fun u ⟨hset, hu⟩ => ?_
    refine ⟨fun x hx => ?_, (honly.mono (fun other h => ?_) fun _ => id).trans
      (hu.mono (fun _ => List.mem_cons_of_mem _) fun _ => id)⟩
    · rcases List.mem_cons.mp hx with rfl | hx
      · have hvalue : t.regs reg = s.read res := ht.read
        have hsame := hsame (res, reg) List.mem_cons_self
        exact (hu.reg reg hnot).trans (hvalue.trans (hsame.trans hread))
      · exact hset x hx
    · exact h ▸ List.mem_cons_self

structure Places (S : Setting) (f : Frame) (args : List (Register × Word)) (s t : State) : Prop where
  set : ∀ x ∈ args, t.regs x.1 = x.2
  only : ChangesOnly (f.Clobbers true) (Scratch (s.regs .framePointer) f.position S.bound) s t

theorem ensures_arguments {args : List Expr} {regs : List Register} {values : List Word}
    {code : Code} {calls : Bool} (hargs : Forall₂ S.Worth args values) (hregs : regs.Nodup)
    (hbank : ∀ reg ∈ regs, reg ∈ Register.argBank)
    (h : (Lower.arguments (args.map Expr.operand) regs).run σ = (.ok code, τ))
    (hf : σ.frames = f :: fs) (hafter : S.After τ) (hbefore : S.Before f calls s)
    (hcalls : ∀ arg ∈ args, arg.containsCalls = true → calls = true) :
    Code.Ensures S.world code s (Places S f (regs.zip values) s) := by
  obtain ⟨shieldCode, shielded, directCode, copyCode, σ₁, σ₂, hshield, hdirect, hcopy, hrelease,
    rfl⟩ := Lower.arguments_ok h
  have hkeeps := Worth.keeps hargs
  have hafter₂ : S.After σ₂ := hafter.of_advances (Lower.releaseTemps_advances hrelease) And.right
  have hdirected := Lower.direct_advances Frame.growth_rests hkeeps hdirect
  have hafter₁ : S.After σ₁ := hafter₂.of_advances hdirected Frame.Rests.highWater
  obtain ⟨g, hg, -⟩ := (Lower.shield_advances Frame.growth_rests hkeeps hshield).frames hf
  have hmem : ∀ {calls : Bool} {x : Register × Word}, x ∈ Lower.shares calls args regs values →
      x.1 ∈ Register.argBank := fun hx =>
    hbank _ (List.of_mem_zip (Lower.mem_zip_of_mem_shares hx)).1
  simp only [Code.ensures_append]
  refine (ensures_shield hargs hshield hf hg hafter₁ hbefore hcalls).mono fun t₁ h₁ => ?_
  have hbefore₁ : S.Before g false t₁ :=
    hbefore.of_only h₁.within h₁.position (by rintro ⟨⟩) (Frame.not_clobbers_framePointer _ _)
      (Frame.not_clobbers_stackPointer _ _) h₁.only
  refine (ensures_direct hargs hregs hbank hdirect hg hafter₂ hbefore₁).mono fun t₂ h₂ => ?_
  have honly₂ : ChangesOnly (g.Clobbers true)
      (Scratch (t₁.regs .framePointer) g.position S.bound) t₁ t₂ :=
    h₂.only.mono
      (fun reg h => h.elim (fun h => clobbers_arg (hbank reg h)) fun h => h.mono (by rintro ⟨⟩))
      fun _ => id
  have hlt : g.position < 2 ^ 64 :=
    Nat.lt_of_le_of_lt (Nat.le_trans h₁.position S.extent_le) S.bound_lt
  have hsame : ∀ p ∈ shielded, t₂.read p.1 = t₁.read p.1 := fun p hp => by
    obtain ⟨ty, hres⟩ := h₁.reserved p hp
    exact hres.read_eq hlt honly₂
  refine (ensures_unshield hcopy h₁.held hsame h₁.reserved hlt (Lower.shares_fst_nodup hregs)
    fun reg hreg => ?_).mono fun t₃ ht₃ => ?_
  · obtain ⟨x, hx, rfl⟩ := List.mem_map.mp hreg
    exact hmem hx
  obtain ⟨hset₃, honly₃⟩ := ht₃
  refine ⟨fun x hx => ?_, ?_⟩
  · rcases Lower.mem_shares_of_mem_zip hargs hx with hx | hx
    · exact hset₃ x hx
    · refine (honly₃.reg x.1 fun hmem => ?_).trans (h₂.set x hx)
      obtain ⟨y, hy, heq⟩ := List.mem_map.mp hmem
      exact Lower.shares_disjoint hregs hy hx heq
  · have hfp := h₁.only.reg _ (Frame.not_clobbers_framePointer f true)
    rw [hfp] at honly₂
    refine h₁.only.trans ((honly₂.mono (fun _ => h₁.within.clobbers) fun _ ha =>
      ha.mono h₁.within.position (Nat.le_refl _)).trans (honly₃.mono (fun reg hreg => ?_) ?_))
    · obtain ⟨x, hx, rfl⟩ := List.mem_map.mp hreg
      exact clobbers_arg (hmem hx)
    · exact fun _ => False.elim

/-! ## The branch -/

theorem Ready.pointer_toNat (h : S.Ready s) :
    (s.regs .stackPointer).toNat + S.extent = (s.regs .framePointer).toNat := by
  have hroom := h.room
  have hlt := S.bound_lt
  rw [h.bound] at hroom hlt
  rw [h.pointer, BitVec.toNat_sub, BitVec.toNat_ofNat]
  omega

theorem Ready.scratch (h : S.Ready s) (hposition : f.position ≤ S.extent) {a : Word}
    (ha : a.toNat < (s.regs .stackPointer).toNat) :
    Scratch (s.regs .framePointer) f.position S.bound a := by
  have hpointer := h.pointer_toNat
  have hlt := (s.regs .framePointer).isLt
  rw [Scratch, h.bound, below, BitVec.toNat_sub]
  omega

theorem liveTempRegs_subset {g : Frame} {reg : Register} :
    reg ∈ g.liveTempRegs ↔ reg ∈ Register.tempBank ∧ g.liveRegs.contains reg = true :=
  List.mem_filter

theorem saveSize_liveTempRegs (g : Frame) : saveSize g.liveTempRegs.length ≤ saveRoom := by
  have h : g.liveTempRegs.length ≤ Register.tempBank.length := List.length_filter_le _ _
  have hlength : Register.tempBank.length = 8 := by decide
  simp only [saveSize, saveSlotSize, saveRoom]
  omega

/-- Registers that are neither free nor argument registers survive a call: temporaries because they
are saved, the others because the callee keeps them. -/
theorem kept_of_not_clobbers {g : Frame} {reg : Register} (h : ¬ g.Clobbers true reg) :
    reg ∈ g.liveTempRegs ∨ reg = .stackPointer ∨ Register.Kept reg := by
  simp only [Frame.Clobbers, not_or, not_and, Bool.not_eq_false, true_and] at h
  obtain ⟨hstaging, hoperand, htemp, harg, hlink⟩ := h
  cases reg with
  | arg index => exact absurd (Register.mem_argBank.mpr ⟨index, rfl⟩) harg
  | indirectResult =>
    have hbank := Register.mem_tempBank.mpr (Or.inl rfl)
    exact Or.inl (liveTempRegs_subset.mpr ⟨hbank, htemp hbank⟩)
  | temp index =>
    have hbank := Register.mem_tempBank.mpr (Or.inr ⟨index, rfl⟩)
    exact Or.inl (liveTempRegs_subset.mpr ⟨hbank, htemp hbank⟩)
  | scratch index =>
    match index with
    | 0 => exact absurd rfl hstaging
    | 1 => exact absurd rfl hoperand
  | calleeSaved index => exact Or.inr (Or.inr (Or.inr ⟨index, rfl⟩))
  | framePointer => exact Or.inr (Or.inr (Or.inl rfl))
  | linkRegister => exact absurd rfl hlink
  | stackPointer => exact Or.inr (Or.inl rfl)

structure Calls (S : Setting) (f : Frame) (result : Option Word) (s t : State) : Prop where
  result : ∀ v, result = some v → t.regs .result = v
  only : ChangesOnly (f.Clobbers true) (Scratch (s.regs .framePointer) f.position S.bound) s t

/-- The branch to a function whose arguments are in place, between the code that saves the live
temporaries and the code that restores them. -/
theorem ensures_branch {callee : String} {values : List Word} {result : Option Word} {g : Frame}
    (hcall : S.ctx.call callee values = some result) (hready : S.Ready s)
    (hposition : g.position ≤ S.extent)
    (hargs : ∀ arg ∈ Register.argBank.zip values, s.regs arg.1 = arg.2) :
    Code.Ensures S.world (Code.saveRegs g.liveTempRegs ++
      Code.ofInstrs [.bl (S.label callee)] ++ Code.restoreRegs g.liveTempRegs) s
      (Calls S g result s) := by
  have hpointer := hready.pointer_toNat
  have hroom := hready.room
  have hsave := saveSize_liveTempRegs g
  rw [hready.bound] at hroom
  have hsp : .stackPointer ∉ g.liveTempRegs := fun h => by
    simpa [Register.mem_tempBank] using (liveTempRegs_subset.mp h).1
  refine Code.ensures_saved hready.aligned hsp (by omega) fun s₁ hdeeper haligned => ?_
  have hpointer₁ := hdeeper.pointer_toNat (by omega)
  have hargs₁ : ∀ arg ∈ Register.argBank.zip values, s₁.regs arg.1 = arg.2 := fun arg harg => by
    obtain ⟨index, hindex⟩ := Register.mem_argBank.mp (List.of_mem_zip harg).1
    rw [hdeeper.reg _ (by rw [hindex]; exact nofun)]
    exact hargs arg harg
  refine S.world.call_mono (fun t₁ ht₁ => ⟨ht₁.returns, fun t ht => ⟨fun v hv => ?_, ?_, ?_⟩⟩)
    (S.serves hcall haligned (by omega) hargs₁)
  · have hnot : Register.result ∉ g.liveTempRegs := fun h => by
      simpa [Register.mem_tempBank, Register.result] using (liveTempRegs_subset.mp h).1
    rw [ht.other _ hnot nofun]
    exact ht₁.result v hv
  · intro reg hreg
    by_cases hlive : reg ∈ g.liveTempRegs
    · exact ht.saved reg hlive
    · rcases (kept_of_not_clobbers hreg).resolve_left hlive with rfl | hkept
      · exact ht.pointer
      · have hne : reg ≠ .stackPointer := by
          rintro rfl
          rcases hkept with h | ⟨index, h⟩ <;> cases h
        rw [ht.other reg hlive hne, ht₁.kept reg hkept, hdeeper.reg reg hne]
  · intro a ha
    have hle : (s.regs .stackPointer).toNat ≤ a.toNat :=
      Nat.le_of_not_lt fun h => ha (hready.scratch hposition h)
    rw [ht.mem, ht₁.returns.byte a (by omega), hdeeper.byte a hle]

theorem ensures_functionCall {callee : String} {args : List Expr} {values : List Word}
    {result : Option Word} {target : Option Reservation} {code : Code} {calls : Bool}
    (hargs : Forall₂ S.Worth args values) (hcall : S.ctx.call callee values = some result)
    (h : (Lower.functionCall callee (args.map Expr.operand) target).run σ = (.ok code, τ))
    (hf : σ.frames = f :: fs) (hafter : S.After τ) (hbefore : S.Before f calls s)
    (hcalls : calls = true) :
    ∃ callCode resultCode ty, code = callCode ++ resultCode ∧
      Lower.result ty target = .ok resultCode ∧
      Code.Ensures S.world callCode s (Calls S f result s) := by
  obtain ⟨signature, regs, argCode, resultCode, g, gs, σ₁, -, -, hregs, hargCode, hg, hresult, rfl,
    rfl⟩ := Lower.functionCall_ok h
  refine ⟨_, resultCode, signature.returnTy, rfl, hresult, ?_⟩
  obtain ⟨hle, rfl⟩ : args.length ≤ 8 ∧ regs = Register.argBank.take args.length := by
    rw [argRegisters, List.length_map] at hregs
    split at hregs
    · cases hregs
      exact ⟨‹_›, rfl⟩
    · cases hregs
  have hafter₁ : S.After σ₁ := ⟨hafter.peak, hafter.texts, hafter.label⟩
  obtain ⟨usedBuiltins, hmark⟩ := Session.markUsed_eq callee σ
  rw [hmark] at hargCode
  have hadvance := Lower.arguments_advances Frame.growth_rests (Worth.keeps hargs) hargCode
  obtain ⟨g', hg', hrest⟩ := hadvance.frames hf
  cases hg.symm.trans hg'
  have hnodup : (Register.argBank.take args.length).Nodup :=
    List.Nodup.sublist (List.take_sublist _ _) (by decide)
  have hplaces := ensures_arguments hargs hnodup (fun reg hreg => List.mem_of_mem_take hreg)
    hargCode hf hafter₁ hbefore fun _ _ _ => hcalls
  rw [List.append_assoc, List.append_assoc, Code.ensures_append]
  refine hplaces.mono fun t ht => ?_
  have hposition : g.position ≤ S.extent := hrest.position ▸ hbefore.position
  have hbefore₁ : S.Before g true t :=
    hbefore.of_only hrest.within hposition (fun _ => hcalls) (Frame.not_clobbers_framePointer _ _)
      (Frame.not_clobbers_stackPointer _ _) ht.only
  have hzip : Register.argBank.zip values = (Register.argBank.take args.length).zip values := by
    have hlength : values.length ≤ Register.argBank.length := hargs.length_eq ▸ hle
    rw [List.zip_eq_zip_take_min, Nat.min_eq_right hlength, List.take_length, hargs.length_eq]
  have hlabel : σ₁.options.functionLabel = S.label := hafter₁.label
  rw [← List.append_assoc, hlabel]
  refine (ensures_branch hcall (hbefore₁.ready rfl) hposition fun arg harg => ?_).mono fun u hu => ?_
  · exact ht.set arg (hzip ▸ harg)
  · refine ⟨hu.result, ht.only.trans (hu.only.mono (fun _ => hrest.within.clobbers) ?_)⟩
    rw [ht.only.reg _ (Frame.not_clobbers_framePointer _ _), hrest.position]
    exact fun _ => id

theorem evaluates_call {callee : String} {args : List Expr} {values : List Word} {ty : Ty}
    {v : Word} (hargs : Forall₂ S.Worth args values) (hne : callee ≠ trapCallee)
    (hcall : S.ctx.call callee values = some (some v)) : S.Evaluates (.call callee args ty) v := by
  intro target σ τ code f fs s h hf hafter hfits _ hbefore
  simp only [Expr.lower, Lower.call, if_neg hne, Expr.operands_eq_map] at h
  obtain ⟨callCode, resultCode, ty', rfl, hresult, hens⟩ :=
    ensures_functionCall hargs hcall h hf hafter hbefore rfl
  rw [Code.ensures_append]
  refine hens.mono fun t ht => ?_
  refine (Code.ensures_copy hresult hfits.receives.1 (by rintro _ ⟨⟩)).mono fun u hu => ?_
  have hread : t.read (.ofReg ty' .result) = v := ht.result v rfl
  rw [hread] at hu
  have hlands := hu.lands f true S.bound
  refine ⟨hlands.read, (ht.only.mono (fun _ => Or.inr) fun _ => Or.inr).trans ?_⟩
  rw [← ht.only.reg _ (Frame.not_clobbers_framePointer f true)]
  exact hlands.only

/-! ## All expressions -/

theorem worth_all {args : List Expr} {values : List Word}
    (hvalues : Forall₂ (fun arg v => arg.eval S.ctx = some v) args values)
    (hfree : ∀ arg ∈ args, arg.arrayFree = true) (htyped : ∀ arg ∈ args, arg.WellTyped)
    (hevaluates : ∀ arg ∈ args, ∀ v, arg.eval S.ctx = some v → S.Evaluates arg v) :
    Forall₂ S.Worth args values := by
  induction hvalues with
  | nil => exact .nil
  | @cons arg v args values hv _ ih =>
    have hhead : arg ∈ arg :: args := List.mem_cons_self
    refine .cons ⟨hv, hfree _ hhead, htyped _ hhead, hevaluates _ hhead _ hv⟩ (ih ?_ ?_ ?_)
    · exact fun arg harg => hfree arg (List.mem_cons_of_mem _ harg)
    · exact fun arg harg => htyped arg (List.mem_cons_of_mem _ harg)
    · exact fun arg harg => hevaluates arg (List.mem_cons_of_mem _ harg)

theorem evaluates (expr : Expr) {v : Word} (hfree : expr.arrayFree = true)
    (htyped : expr.WellTyped) (hv : expr.eval S.ctx = some v) : S.Evaluates expr v := by
  induction expr using Expr.induct generalizing v with
  | literal value ty =>
    cases hv
    exact evaluates_literal value ty
  | var name ty => exact evaluates_var hv
  | deref pointer ty ih =>
    obtain ⟨htyped, rfl⟩ := htyped
    obtain ⟨a, ha, hload⟩ := Option.bind_eq_some_iff.mp hv
    exact (evaluates_deref ⟨ha, hfree, htyped, ih hfree htyped ha⟩ hload _).1
  | call callee args ty ih =>
    have hne : callee ≠ trapCallee := by
      rintro rfl
      simp [Expr.eval] at hv
    rw [Expr.eval, if_neg hne] at hv
    obtain ⟨values, hvalues, hcall⟩ := Option.bind_eq_some_iff.mp hv
    obtain ⟨result, hresult, hfilter⟩ := Option.bind_eq_some_iff.mp hcall
    obtain ⟨rfl, -⟩ := Option.filter_eq_some_iff.mp hfilter
    have hfrees := Expr.allArrayFree_eq_true.mp hfree
    have htypes := Expr.allWellTyped_iff.mp htyped
    refine evaluates_call (worth_all (Expr.evalAll_eq_some hvalues) hfrees htypes ?_) hne hresult
    exact fun arg harg v hv => ih arg harg (hfrees arg harg) (htypes arg harg) hv
  | binary op lhs rhs ty ihl ihr =>
    obtain ⟨htl, htr, rfl⟩ := htyped
    obtain ⟨hfl, hfr⟩ := Bool.and_eq_true_iff.mp hfree
    obtain ⟨a, ha, hmap⟩ := Option.bind_eq_some_iff.mp hv
    obtain ⟨b, hb, rfl⟩ := Option.map_eq_some_iff.mp hmap
    exact evaluates_binary ⟨ha, hfl, htl, ihl hfl htl ha⟩ ⟨hb, hfr, htr, ihr hfr htr hb⟩
  | unary op operand ty ih =>
    obtain ⟨htyped, rfl⟩ := htyped
    cases op with
    | addrOf =>
      cases operand with
      | var name ty => exact evaluates_address hv
      | _ => cases hv
    | deref =>
      obtain ⟨a, ha, hload⟩ := Option.bind_eq_some_iff.mp hv
      exact (evaluates_deref ⟨ha, hfree, htyped, ih hfree htyped ha⟩ hload _).2
    | neg =>
      obtain ⟨a, ha, rfl⟩ := Option.map_eq_some_iff.mp hv
      exact evaluates_unary ⟨ha, hfree, htyped, ih hfree htyped ha⟩ (by decide) (by decide)
    | not =>
      obtain ⟨a, ha, rfl⟩ := Option.map_eq_some_iff.mp hv
      exact evaluates_unary ⟨ha, hfree, htyped, ih hfree htyped ha⟩ (by decide) (by decide)
    | bitNot =>
      obtain ⟨a, ha, rfl⟩ := Option.map_eq_some_iff.mp hv
      exact evaluates_unary ⟨ha, hfree, htyped, ih hfree htyped ha⟩ (by decide) (by decide)
  | array elements ty ih => cases hfree
  | str text ty =>
    cases hv
    exact evaluates_str text ty
  | empty ty => cases hv

end Setting

end ArmBackend
