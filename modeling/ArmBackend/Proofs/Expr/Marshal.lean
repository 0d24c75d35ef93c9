import ArmBackend.Proofs.Expr.Call
import ArmBackend.Proofs.Expr.Isolated
import ArmBackend.Proofs.Expr.Hosted

/-!
# Operands of calls

At every branch the operands are in their registers, whichever of them call out themselves. Temporaries
keep their values across it.
-/

namespace ArmBackend

open Session (onFrame Advances onFrame_ok)

namespace Lower

def calling : List Expr → List Register → List Register
  | arg :: args, reg :: regs =>
    if arg.containsCalls then reg :: calling args regs else calling args regs
  | _, _ => []

theorem calling_sublist (args : List Expr) (regs : List Register) :
    (calling args regs).Sublist regs := by
  induction args generalizing regs with
  | nil => exact List.nil_sublist _
  | cons arg args ih =>
    cases regs with
    | nil => exact List.nil_sublist _
    | cons reg regs =>
      rw [calling]
      split
      · exact (ih regs).cons_cons reg
      · exact (ih regs).cons reg

theorem not_mem_calling {args : List Expr} {regs : List Register} (hregs : regs.Nodup)
    {p : Expr × Register} (hp : p ∈ args.zip regs) (hcalls : p.1.containsCalls = false) :
    p.2 ∉ calling args regs := by
  induction args generalizing regs with
  | nil => simp at hp
  | cons arg args ih =>
    cases regs with
    | nil => simp at hp
    | cons reg regs =>
      obtain ⟨hnot, hregs⟩ := List.nodup_cons.mp hregs
      rw [calling]
      rcases List.mem_cons.mp hp with rfl | hp
      · simp only [hcalls, Bool.false_eq_true, if_false]
        exact fun hmem => hnot ((calling_sublist args regs).subset hmem)
      · have hne : p.2 ≠ reg := fun heq => hnot (heq ▸ (List.of_mem_zip hp).2)
        split
        · exact fun hmem => (List.mem_cons.mp hmem).elim hne (ih hregs hp)
        · exact ih hregs hp

end Lower

namespace Hosted

variable {S : Hosted} {σ τ : Session} {f g : Frame} {fs : List Frame} {m s : State}
  {past : List Visit} {args : List Expr} {regs : List Register} {code : Code}

/-! ## Placing operands -/

theorem keeps_operands (hfree : ∀ arg ∈ args, arg.arrayFree = true) :
    ∀ operand ∈ args.map Expr.operand, operand.Keeps Frame.Rests := by
  intro operand hoperand
  obtain ⟨arg, harg, rfl⟩ := List.mem_map.mp hoperand
  exact Expr.operand_rests (hfree arg harg)

/-- The outcome of evaluating the arguments that call out into temporaries. All arguments are worth
what registers hold, as soon as those of `share` hold these values and the others are evaluated. -/
structure Shelters (S : Hosted) (args : List Expr) (regs : List Register) (f g : Frame)
    (shielded : List (Reservation × Register)) (share : List (Register × Word)) (m s : State)
    (visits : List Visit) (m' t : State) : Prop where
  shields : Setting.Shields S.setting f g shielded share s t
  registers : share.map Prod.fst = Lower.calling args regs
  mirrors : S.Mirrors m' t
  completes : ∀ r : Register → Word, (∀ x ∈ share, r x.1 = x.2) →
    (∀ p ∈ args.zip regs, p.1.containsCalls = false → S.Evaluates p.1 m' [] (r p.2) m') →
    S.Arguments args m visits (regs.map r) m'

theorem Shelters.nil (hbefore : S.Before f m s) : S.Shelters [] [] f f [] [] m s [] m s where
  shields := .nil hbefore.position
  registers := rfl
  mirrors := hbefore.mirrors
  completes := fun _ _ _ => .nil m

theorem Shelters.quiet {shielded : List (Reservation × Register)} {share : List (Register × Word)}
    {visits : List Visit} {m' t : State} {arg : Expr} {reg : Register}
    (h : S.Shelters args regs f g shielded share m s visits m' t)
    (hcalls : arg.containsCalls = false) :
    S.Shelters (arg :: args) (reg :: regs) f g shielded share m s visits m' t where
  shields := h.shields
  registers := by simp only [Lower.calling, hcalls, Bool.false_eq_true, if_false, h.registers]
  mirrors := h.mirrors
  completes := fun r hshare hdirect =>
    .direct hcalls (hdirect (arg, reg) List.mem_cons_self hcalls)
      (h.completes r hshare fun p hp => hdirect p (List.mem_cons_of_mem _ hp))

theorem Shelters.cons {f₁ : Frame} {shielded : List (Reservation × Register)}
    {share : List (Register × Word)} {visits visits' : List Visit} {m₁ m' t u : State} {arg : Expr}
    {reg : Register} {res : Reservation} {v : Word} (hcalls : arg.containsCalls = true)
    (hres : Reserves f arg.ty res f₁) (hwaits : S.Waits arg arg.ty res f f₁ m s visits v m₁ t)
    (h : S.Shelters args regs f₁ g shielded share m₁ t visits' m' u) :
    S.Shelters (arg :: args) (reg :: regs) f g ((res, reg) :: shielded)
      ((reg, t.read res) :: share) m s (visits ++ visits') m' u where
  shields := .cons hres rfl (hcalls ▸ hwaits.only) h.shields
  registers := by simp only [Lower.calling, hcalls, if_true, List.map_cons, h.registers]
  mirrors := h.mirrors
  completes := fun r hshare hdirect => by
    have hreg : r reg = t.read res := hshare _ List.mem_cons_self
    have hrest := h.completes r (fun x hx => hshare x (List.mem_cons_of_mem _ hx))
      fun p hp => hdirect p (List.mem_cons_of_mem _ hp)
    rw [List.map_cons, hreg]
    exact .shielded hcalls hwaits.evaluates hwaits.keeps hrest

theorem traces_shield {shielded : List (Reservation × Register)}
    (hfollows : ∀ arg ∈ args, S.Follows arg) (hfree : ∀ arg ∈ args, arg.arrayFree = true)
    (hlength : regs.length = args.length)
    (h : (Lower.shield (args.map Expr.operand) regs).run σ = (.ok (code, shielded), τ))
    (hf : σ.frames = f :: fs) (hg : τ.frames = g :: fs) (hafter : S.setting.After τ)
    (hbefore : S.Before f m s) :
    Code.Traces S.host code past s fun visits t =>
      ∃ share m', S.Shelters args regs f g shielded share m s visits m' t := by
  induction args generalizing regs σ f m s code shielded past with
  | nil =>
    obtain rfl := List.eq_nil_of_length_eq_zero hlength
    simp only [List.map_nil, Lower.shield] at h
    cases h
    cases hf.symm.trans hg
    exact ⟨[], s, rfl, [], m, .nil hbefore⟩
  | cons arg args ih =>
    obtain ⟨reg, regs, rfl⟩ := List.exists_cons_of_length_eq_add_one hlength
    have hfollows' := fun other hother => hfollows other (List.mem_cons_of_mem arg hother)
    have hfree' := fun other hother => hfree other (List.mem_cons_of_mem arg hother)
    have hlength' : regs.length = args.length := Nat.succ.inj hlength
    cases hcalls : arg.containsCalls with
    | false =>
      rw [List.map_cons, Lower.shield_quiet _ _ _ hcalls] at h
      refine (ih hfollows' hfree' hlength' h hf hbefore).mono fun visits t ht => ?_
      obtain ⟨share, m', hshelters⟩ := ht
      exact ⟨share, m', hshelters.quiet hcalls⟩
    | true =>
      obtain ⟨res, argCode, restCode, shielded', σ₁, σ₂, hres, hcode, htail, heq⟩ :=
        Lower.shield_calls_ok hcalls h
      cases heq
      have hafter₂ : S.setting.After σ₂ := hafter.of_advances
        (Lower.shield_advances Frame.growth_rests (keeps_operands hfree') htail) And.right
      obtain ⟨f₁, hf₁, hreserves, -, htraces⟩ := (hfollows arg List.mem_cons_self).temp
        (hfree arg List.mem_cons_self) hres hcode hf hafter₂ hbefore
      refine htraces.append fun visits t ht => ?_
      obtain ⟨v, m₁, hwaits⟩ := ht
      refine (ih hfollows' hfree' hlength' htail hf₁ hwaits.before).mono fun visits' u hu => ?_
      obtain ⟨share, m', hshelters⟩ := hu
      exact ⟨_, m', .cons hcalls hreserves hwaits hshelters⟩

structure Settles (S : Hosted) (args : List Expr) (regs : List Register) (f : Frame) (m s t : State) :
    Prop where
  evaluates : ∀ p ∈ args.zip regs, p.1.containsCalls = false → S.Evaluates p.1 m [] (t.regs p.2) m
  mirrors : S.Mirrors m t
  only : ChangesOnly (fun reg => reg ∈ regs ∨ f.Clobbers false reg)
    (Scratch (s.regs .framePointer) f.position everywhere) s t

theorem Settles.calling {arg : Expr} {reg : Register} {t : State} (h : S.Settles args regs f m s t)
    (hcalls : arg.containsCalls = true) : S.Settles (arg :: args) (reg :: regs) f m s t where
  evaluates p hp hquiet := by
    rcases List.mem_cons.mp hp with rfl | hp
    · simp [hcalls] at hquiet
    · exact h.evaluates p hp hquiet
  mirrors := h.mirrors
  only := h.only.mono (fun _ => Or.imp_left (List.mem_cons_of_mem _)) fun _ => id

theorem Settles.cons {f₁ : Frame} {arg : Expr} {reg : Register} {v : Word} {t u : State}
    (hreg : reg ∈ Register.argBank) (hnot : reg ∉ regs) (hrest : Frame.Rests f f₁)
    (hfp : ¬ (.framePointer = reg ∨ f.Clobbers false .framePointer))
    (hevaluates : S.Evaluates arg m [] v m) (hvalue : t.regs reg = v)
    (honly : ChangesOnly (fun other => other = reg ∨ f.Clobbers false other)
      (Scratch (s.regs .framePointer) f.position everywhere) s t)
    (h : S.Settles args regs f₁ m t u) : S.Settles (arg :: args) (reg :: regs) f m s u where
  evaluates p hp hquiet := by
    rcases List.mem_cons.mp hp with rfl | hp
    · have hkept : u.regs reg = t.regs reg :=
        h.only.reg reg fun hmem => hmem.elim hnot (Setting.not_clobbers_arg hreg)
      rw [hkept, hvalue]
      exact hevaluates
    · exact h.evaluates p hp hquiet
  mirrors := h.mirrors
  only := by
    refine (honly.mono (fun other => Or.imp_left fun h => ?_) fun _ => id).trans
      (h.only.mono (fun other => ?_) fun a ha => ?_)
    · exact h ▸ List.mem_cons_self
    · exact Or.imp (List.mem_cons_of_mem _) hrest.within.clobbers
    · rw [honly.reg _ hfp, hrest.position] at ha
      exact ha

theorem traces_direct (hfollows : ∀ arg ∈ args, S.Follows arg)
    (hfree : ∀ arg ∈ args, arg.arrayFree = true) (hregs : regs.Nodup)
    (hbank : ∀ reg ∈ regs, reg ∈ Register.argBank)
    (h : (Lower.direct (args.map Expr.operand) regs).run σ = (.ok code, τ))
    (hf : σ.frames = f :: fs) (hafter : S.setting.After τ) (hbefore : S.Before f m s) :
    Code.Traces S.host code past s fun visits t =>
      visits = [] ∧ S.Settles args regs f m s t := by
  induction args generalizing regs σ f s code past with
  | nil =>
    simp only [List.map_nil, Lower.direct] at h
    cases h
    exact ⟨[], s, rfl, rfl, by simp, hbefore.mirrors, .refl _ _ s⟩
  | cons arg args ih =>
    cases regs with
    | nil =>
      cases h
      exact ⟨[], s, rfl, rfl, by simp, hbefore.mirrors, .refl _ _ s⟩
    | cons reg regs =>
      have hfollows' := fun other hother => hfollows other (List.mem_cons_of_mem arg hother)
      have hfree' := fun other hother => hfree other (List.mem_cons_of_mem arg hother)
      obtain ⟨hnot, hregs⟩ := List.nodup_cons.mp hregs
      have hreg : reg ∈ Register.argBank := hbank reg List.mem_cons_self
      have hbank : ∀ reg ∈ regs, reg ∈ Register.argBank := fun other hother =>
        hbank other (List.mem_cons_of_mem _ hother)
      cases hcalls : arg.containsCalls with
      | true =>
        rw [List.map_cons, Lower.direct_calls _ _ _ hcalls] at h
        exact (ih hfollows' hfree' hregs hbank h hf hbefore).mono fun visits t ht =>
          ⟨ht.1, ht.2.calling hcalls⟩
      | false =>
        obtain ⟨argCode, restCode, σ₁, hcode, htail, rfl⟩ := Lower.direct_quiet_ok hcalls h
        have hafter₁ : S.setting.After σ₁ := hafter.of_advances
          (Lower.direct_advances Frame.growth_rests (keeps_operands hfree') htail)
          Frame.Rests.highWater
        obtain ⟨f₁, hf₁, hrest₁⟩ :=
          (Expr.lower_rests (hfree arg List.mem_cons_self) hcode).frames hf
        refine (hfollows arg List.mem_cons_self hcode hf hafter₁ (Setting.fits_arg hreg arg.ty f)
          (S.spills_ofReg _ _) hbefore).append fun visits t ht => ?_
        obtain ⟨v, m', hevaluates, hmirrors, hlands⟩ := ht
        obtain ⟨rfl, rfl⟩ := hevaluates.quiet hcalls
        rw [hcalls] at hlands
        have honly : ChangesOnly (fun other => other = reg ∨ f.Clobbers false other)
            (Scratch (s.regs .framePointer) f.position everywhere) s t :=
          hlands.only.mono (fun other => Or.imp_left fun h => (Location.reg.inj h).symm) fun a ha =>
            ha.resolve_left id
        have hfp : ¬ (.framePointer = reg ∨ f.Clobbers false .framePointer) := by
          rintro (rfl | h)
          · simp [Register.mem_argBank] at hreg
          · exact Frame.not_clobbers_framePointer _ _ h
        have hsp : ¬ (.stackPointer = reg ∨ f.Clobbers false .stackPointer) := by
          rintro (rfl | h)
          · simp [Register.mem_argBank] at hreg
          · exact Frame.not_clobbers_stackPointer _ _ h
        have hbefore₁ : S.Before f₁ m' t := hbefore.of_only hrest₁.within
          (hrest₁.position ▸ hbefore.position) hfp hsp honly hmirrors
        exact (ih hfollows' hfree' hregs hbank htail hf₁ hbefore₁).mono fun visits u hu =>
          ⟨hu.1, .cons hreg hnot hrest₁ hfp hevaluates hlands.read honly hu.2⟩

structure Places (S : Hosted) (args : List Expr) (regs : List Register) (f : Frame) (m s : State)
    (visits : List Visit) (m' t : State) : Prop where
  arguments : S.Arguments args m visits (regs.map t.regs) m'
  mirrors : S.Mirrors m' t
  only : ChangesOnly (f.Clobbers true) (Scratch (s.regs .framePointer) f.position everywhere) s t

theorem traces_arguments (hfollows : ∀ arg ∈ args, S.Follows arg)
    (hfree : ∀ arg ∈ args, arg.arrayFree = true) (hlength : regs.length = args.length)
    (hregs : regs.Nodup) (hbank : ∀ reg ∈ regs, reg ∈ Register.argBank)
    (h : (Lower.arguments (args.map Expr.operand) regs).run σ = (.ok code, τ))
    (hf : σ.frames = f :: fs) (hafter : S.setting.After τ) (hbefore : S.Before f m s) :
    Code.Traces S.host code past s fun visits t =>
      ∃ m', S.Places args regs f m s visits m' t := by
  obtain ⟨shieldCode, shielded, directCode, copyCode, σ₁, σ₂, hshield, hdirect, hcopy, hrelease,
    rfl⟩ := Lower.arguments_ok h
  have hkeeps := keeps_operands hfree
  have hafter₂ : S.setting.After σ₂ :=
    hafter.of_advances (Lower.releaseTemps_advances hrelease) And.right
  have hafter₁ : S.setting.After σ₁ := hafter₂.of_advances
    (Lower.direct_advances Frame.growth_rests hkeeps hdirect) Frame.Rests.highWater
  obtain ⟨g, hg, -⟩ := (Lower.shield_advances Frame.growth_rests hkeeps hshield).frames hf
  rw [List.append_assoc]
  refine (traces_shield hfollows hfree hlength hshield hf hg hafter₁ hbefore).append
    fun visits t₁ ⟨share, m', hshelters⟩ => ?_
  have hshields := hshelters.shields
  have hmem : ∀ reg ∈ share.map Prod.fst, reg ∈ Register.argBank := fun reg hreg =>
    hbank reg ((Lower.calling_sublist args regs).subset (hshelters.registers ▸ hreg))
  have hnodup : (share.map Prod.fst).Nodup :=
    hshelters.registers ▸ hregs.sublist (Lower.calling_sublist args regs)
  have hbefore₁ : S.Before g m' t₁ :=
    hbefore.of_only hshields.within hshields.position (Frame.not_clobbers_framePointer _ _)
      (Frame.not_clobbers_stackPointer _ _) hshields.only hshelters.mirrors
  refine (traces_direct hfollows hfree hregs hbank hdirect hg hafter₂ hbefore₁).append
    fun visits' t₂ ⟨hvisits, hsettles⟩ => ?_
  subst hvisits
  have honly₂ : ChangesOnly (g.Clobbers true)
      (Scratch (t₁.regs .framePointer) g.position everywhere) t₁ t₂ :=
    hsettles.only.mono (fun reg h => h.elim (fun h => Setting.clobbers_arg (hbank reg h))
      fun h => h.mono (by rintro ⟨⟩)) fun _ => id
  have hlt : g.position < 2 ^ 64 := Nat.lt_of_le_of_lt hshields.position S.extent_lt
  have hsame : ∀ p ∈ shielded, t₂.read p.1 = t₁.read p.1 := fun p hp => by
    obtain ⟨ty, hres⟩ := hshields.reserved p hp
    exact hres.read_eq hlt honly₂
  refine Code.traces_of_ensures (Setting.ensures_unshield hcopy hshields.held hsame
    hshields.reserved hlt hnodup hmem) fun t₃ ⟨hset, honly₃⟩ => ⟨m', ?_, ?_, ?_⟩
  · rw [List.append_nil, List.append_nil]
    refine hshelters.completes t₃.regs hset fun p hp hquiet => ?_
    have hnot : p.2 ∉ share.map Prod.fst :=
      hshelters.registers ▸ Lower.not_mem_calling hregs hp hquiet
    rw [honly₃.reg p.2 hnot]
    exact hsettles.evaluates p hp hquiet
  · exact fun a ha => (honly₃.byte a id).trans (hsettles.mirrors a ha)
  · have hfp := hshields.only.reg _ (Frame.not_clobbers_framePointer f true)
    rw [hfp] at honly₂
    refine hshields.only.trans ((honly₂.mono (fun _ => hshields.within.clobbers) fun _ ha =>
      ha.mono hshields.within.position (Nat.le_refl _)).trans (honly₃.mono (fun reg hreg => ?_) ?_))
    · exact Setting.clobbers_arg (hmem reg hreg)
    · exact fun _ => False.elim

end Hosted

end ArmBackend
