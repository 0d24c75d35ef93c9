import ArmBackend.Proofs.Expr.Accepted

/-!
# Lowering accepted expressions

When each form of expression is lowered, in terms of its parts. A part that calls out is held in a
temporary, so its type has to have a size. The calls that are accepted there return a value that has one.
-/

namespace ArmBackend

open Session (onFrame Advances onFrame_ok)
open ArmBackend.Frame (Rests Over Follows)
open StepM (succeeds_bind_iff succeeds_bind_left succeeds_lift_bind)

variable {signatures : List Signature} {σ τ : Session} {f : Frame} {args : List Expr}
  {regs : List Register} {target : Reservation}

namespace Lower

/-! ## Operators and addresses -/

theorem unary_succeeds {op : UnOp} {operand : Expr} (hoperand : operand.Lowers signatures)
    (haccepts : op.accepts operand.ty = true) (hop : op ≠ .addrOf) (htarget : target.isAssigned = true)
    (h : σ.Hosts signatures f) :
    (unary op target operand.operand).Succeeds σ ↔ operand.Accepted signatures f.names := by
  have hcheck : Check.unary op operand.ty = .ok () := Check.unary_eq_ok.mpr haccepts
  have hsize : 0 < operand.ty.size := Ty.storable_iff.mp (UnOp.storable_of_accepts haccepts).1
  have hbody : ∀ {res : Reservation} {σ₁ : Session} {f₁ : Frame}, res.isAssigned = true →
      res.ty = operand.ty → σ₁.Hosts signatures f₁ →
      ∀ {rest : Code → Code → CompileM Code}, (∀ code opCode τ, Advances Rests σ₁ τ →
        (rest code opCode).Succeeds τ) →
      ((do let code ← operand.lower res
           let opCode ← op.code target res
           rest code opCode : CompileM Code).Succeeds σ₁ ↔ operand.Accepted signatures f₁.names) := by
    intro res σ₁ f₁ hres hty h₁ rest hrest
    rw [← hoperand.succeeds hres h₁]
    refine succeeds_bind_left fun code τ hrun => ?_
    obtain ⟨opCode, hcode⟩ := UnOp.code_isOk htarget hres (hty ▸ haccepts) hop
    exact succeeds_lift_bind.mpr ⟨opCode, hcode, hrest _ _ _ (hoperand.keeps _ hrun)⟩
  rw [unary, succeeds_lift_bind]
  simp only [Expr.operand, hcheck, exists_const, true_and]
  cases hreg : target.register? with
  | some reg =>
    exact hbody (Reservation.isAssigned_ofReg _ reg) rfl h fun _ _ _ _ => StepM.succeeds_pure _ _
  | none =>
    have hreserve : (onFrame (Frame.reserveTemp operand.ty)).Succeeds σ :=
      h.onFrame_succeeds.mpr (Frame.reserveTemp_succeeds.mpr hsize)
    refine hreserve.bind_iff fun res σ₁ hres => ?_
    obtain ⟨f₁, h₁, hrun⟩ := h.reserveTemp hres
    rw [← (Follows.reserveTemp hrun).names]
    obtain ⟨hassigned, hty⟩ := Frame.reserveTemp_assigned hrun
    refine hbody hassigned hty h₁ fun code opCode τ hadvance => ?_
    obtain ⟨f₂, h₂, hrest⟩ := h₁.rests hadvance
    have hne : f₂.temporaries ≠ [] := hrest.temporaries ▸ Frame.reserveTemp_ne_nil hrun
    exact (h₂.releaseTemp_succeeds hne).bind fun _ _ _ => StepM.succeeds_pure _ _

theorem binary_succeeds {op : BinOp} {ty : Ty} {lhs rhs : Expr} (hlhs : lhs.Lowers signatures)
    (hrhs : rhs.Lowers signatures) (haccepts : op.accepts lhs.ty rhs.ty = true) (hsize : 0 < ty.size)
    (htarget : target.isAssigned = true) (h : σ.Hosts signatures f) :
    (binary op ty target lhs.operand rhs.operand).Succeeds σ ↔
      lhs.Accepted signatures f.names ∧ rhs.Accepted signatures f.names := by
  have hcheck : Check.binary op lhs.ty rhs.ty = .ok () := Check.binary_eq_ok.mpr haccepts
  have hrhsSize : 0 < rhs.ty.size := Ty.storable_iff.mp (BinOp.storable_of_accepts haccepts).2.1
  rw [binary, succeeds_lift_bind]
  simp only [Expr.operand, hcheck, exists_const, true_and]
  have hleft : (onFrame (Frame.reserveTemp ty)).Succeeds σ :=
    h.onFrame_succeeds.mpr (Frame.reserveTemp_succeeds.mpr hsize)
  refine hleft.bind_iff fun left σ₁ hleft => ?_
  obtain ⟨f₁, h₁, hrun₁⟩ := h.reserveTemp hleft
  obtain ⟨hleftAssigned, -⟩ := Frame.reserveTemp_assigned hrun₁
  rw [← (Follows.reserveTemp hrun₁).names]
  refine succeeds_bind_iff (hlhs.succeeds hleftAssigned h₁) fun leftCode σ₂ hleftCode => ?_
  have hadvance₂ := hlhs.keeps _ hleftCode
  obtain ⟨f₂, h₂, hrest₂⟩ := h₁.rests hadvance₂
  have hright : (onFrame (Frame.reserveTemp rhs.ty)).Succeeds σ₂ :=
    h₂.onFrame_succeeds.mpr (Frame.reserveTemp_succeeds.mpr hrhsSize)
  refine hright.bind_iff fun right σ₃ hright => ?_
  obtain ⟨f₃, h₃, hrun₃⟩ := h₂.reserveTemp hright
  obtain ⟨hrightAssigned, -⟩ := Frame.reserveTemp_assigned hrun₃
  rw [← (Follows.of_rests hrest₂).names, ← (Follows.reserveTemp hrun₃).names]
  rw [← hrhs.succeeds hrightAssigned h₃]
  refine succeeds_bind_left fun rightCode σ₄ hrightCode => ?_
  have hadvance₄ := hrhs.keeps _ hrightCode
  obtain ⟨f₄, h₄, hrest₄⟩ := h₃.rests hadvance₄
  obtain ⟨code, hcode⟩ := op.code_isOk htarget hleftAssigned hrightAssigned
  refine succeeds_lift_bind.mpr ⟨code, hcode, ?_⟩
  have hne₄ : f₄.temporaries ≠ [] := hrest₄.temporaries ▸ Frame.reserveTemp_ne_nil hrun₃
  refine (h₄.releaseTemp_succeeds hne₄).bind fun _ σ₅ hrelease => ?_
  -- The first release leads back to the frame in which the left operand is in place.
  obtain ⟨f₅, h₅, hrest₅⟩ := h₂.rests (Advances.bracket Frame.growth_rests hright hadvance₄ hrelease)
  have hne₅ : f₅.temporaries ≠ [] := by
    rw [hrest₅.temporaries, hrest₂.temporaries]
    exact Frame.reserveTemp_ne_nil hrun₁
  exact (h₅.releaseTemp_succeeds hne₅).bind fun _ _ _ => StepM.succeeds_pure _ _

theorem address_isOk (htarget : target.isAssigned = true) (build : Register → Code) :
    ∃ code, address target build = .ok code := by
  obtain ⟨copyCode, hcopy⟩ :=
    Code.copy_isOk (target.isAssigned_inRegister target.stagingRegister) htarget
  simp only [address, hcopy]
  exact ⟨_, rfl⟩

theorem resolve_succeeds (name : String) (h : σ.Hosts signatures f) :
    (onFrame (Frame.resolve name)).Succeeds σ ↔ name ∈ f.names :=
  h.onFrame_succeeds.trans Frame.resolve_succeeds

theorem addressOf_succeeds {name : String} {ty : Ty} (htarget : target.isAssigned = true)
    (h : σ.Hosts signatures f) : (addressOf target (.var name ty)).Succeeds σ ↔ name ∈ f.names := by
  rw [addressOf, ← resolve_succeeds name h]
  exact succeeds_bind_left fun slot τ _ => StepM.succeeds_lift.mpr (address_isOk htarget _)

theorem string_succeeds (htarget : target.isAssigned = true) (text : String) (σ : Session) :
    (string target text).Succeeds σ := by
  have hintern : (Session.intern text).Succeeds σ := ⟨_, _, rfl⟩
  exact hintern.bind fun label τ _ => StepM.succeeds_lift.mpr (address_isOk htarget _)

/-! ## Arguments -/

theorem shield_follows {args : List Operand} (hargs : ∀ arg ∈ args, arg.Keeps Rests)
    {out : Code × List (Reservation × Register)} (h : (shield args regs).run σ = (.ok out, τ)) :
    Advances Follows σ τ ∧ ∀ shielded ∈ out.2, shielded.1.isAssigned = true := by
  induction args generalizing regs out σ with
  | nil =>
    cases h
    exact ⟨(Advances.refl _).mono .of_rests, nofun⟩
  | cons arg args ih =>
    have hrest : ∀ arg ∈ args, arg.Keeps Rests := fun other hother =>
      hargs other (List.mem_cons_of_mem _ hother)
    cases regs with
    | nil =>
      cases h
      exact ⟨(Advances.refl _).mono .of_rests, nofun⟩
    | cons reg regs =>
      cases hcalls : arg.calls with
      | true =>
        obtain ⟨res, argCode, restCode, shielded, σ₁, σ₂, hres, hcode, htail, rfl⟩ :=
          shield_calls_ok hcalls h
        obtain ⟨hadvance, hassigned⟩ := ih hrest htail
        obtain ⟨hreserve, f, fs, g, -, hrun, -⟩ := onFrame_ok hres
        have hfirst := (hreserve.mono Follows.reserveTemp).comp
          ((hargs arg List.mem_cons_self res hcode).mono Follows.of_rests) Follows.trans
        refine ⟨hfirst.comp hadvance Follows.trans, fun other hother => ?_⟩
        rcases List.mem_cons.mp hother with rfl | hother
        · exact (Frame.reserveTemp_assigned hrun).1
        · exact hassigned other hother
      | false =>
        rw [shield_quiet _ reg regs hcalls] at h
        exact ih hrest h

theorem shield_succeeds (hargs : ∀ arg ∈ args, arg.Lowers signatures) (hlength : args.length ≤ regs.length)
    (h : σ.Hosts signatures f) :
    (shield (args.map Expr.operand) regs).Succeeds σ ↔
      ∀ arg ∈ args, arg.containsCalls = true → arg.Accepted signatures f.names := by
  induction args generalizing regs σ f with
  | nil => exact iff_of_true (StepM.succeeds_pure _ _) nofun
  | cons arg args ih =>
    have hrest : ∀ arg ∈ args, arg.Lowers signatures := fun other hother =>
      hargs other (List.mem_cons_of_mem _ hother)
    have harg := hargs arg List.mem_cons_self
    cases regs with
    | nil => cases hlength
    | cons reg regs =>
      have hlength' : args.length ≤ regs.length := Nat.le_of_succ_le_succ hlength
      rw [List.forall_mem_cons]
      cases hcalls : arg.containsCalls with
      | false =>
        rw [List.map_cons, shield_quiet _ reg regs (show arg.operand.calls = false from hcalls),
          ih hrest hlength' h]
        simp
      | true =>
        simp only [List.map_cons, shield, Expr.operand, hcalls, if_true, true_imp_iff]
        have hreserve : (onFrame (Frame.reserveTemp arg.ty)).Succeeds σ ↔ 0 < arg.ty.size :=
          h.onFrame_succeeds.trans Frame.reserveTemp_succeeds
        rw [succeeds_bind_iff hreserve (Q := arg.Accepted signatures f.names ∧ ∀ arg ∈ args,
          arg.containsCalls = true → arg.Accepted signatures f.names) fun res σ₁ hres => ?_]
        · exact and_iff_right_of_imp fun haccepted => harg.storable hcalls haccepted.1
        · obtain ⟨f₁, h₁, hrun⟩ := h.reserveTemp hres
          rw [← (Follows.reserveTemp hrun).names]
          refine succeeds_bind_iff (harg.succeeds (Frame.reserveTemp_assigned hrun).1 h₁)
            fun code σ₂ hcode => ?_
          obtain ⟨f₂, h₂, hrest₂⟩ := h₁.rests (harg.keeps _ hcode)
          rw [← (Follows.of_rests hrest₂).names, ← ih hrest hlength' h₂]
          exact succeeds_bind_left fun _ _ _ => StepM.succeeds_pure _ _

theorem direct_succeeds (hargs : ∀ arg ∈ args, arg.Lowers signatures) (hlength : args.length ≤ regs.length)
    (h : σ.Hosts signatures f) :
    (direct (args.map Expr.operand) regs).Succeeds σ ↔
      ∀ arg ∈ args, arg.containsCalls = false → arg.Accepted signatures f.names := by
  induction args generalizing regs σ f with
  | nil => exact iff_of_true (StepM.succeeds_pure _ _) nofun
  | cons arg args ih =>
    have hrest : ∀ arg ∈ args, arg.Lowers signatures := fun other hother =>
      hargs other (List.mem_cons_of_mem _ hother)
    have harg := hargs arg List.mem_cons_self
    cases regs with
    | nil => cases hlength
    | cons reg regs =>
      have hlength' : args.length ≤ regs.length := Nat.le_of_succ_le_succ hlength
      rw [List.forall_mem_cons]
      cases hcalls : arg.containsCalls with
      | true =>
        rw [List.map_cons, direct_calls _ reg regs (show arg.operand.calls = true from hcalls),
          ih hrest hlength' h]
        simp
      | false =>
        simp only [List.map_cons, direct, Expr.operand, hcalls, Bool.false_eq_true, if_false,
          true_imp_iff]
        refine succeeds_bind_iff (harg.succeeds (Reservation.isAssigned_ofReg _ reg) h)
          fun code σ₁ hcode => ?_
        obtain ⟨f₁, h₁, hrest₁⟩ := h.rests (harg.keeps _ hcode)
        rw [← (Follows.of_rests hrest₁).names, ← ih hrest hlength' h₁]
        exact succeeds_bind_left fun _ _ _ => StepM.succeeds_pure _ _

theorem unshield_isOk {shielded : List (Reservation × Register)}
    (h : ∀ entry ∈ shielded, entry.1.isAssigned = true) : ∃ code, unshield shielded = .ok code := by
  induction shielded with
  | nil => exact ⟨_, rfl⟩
  | cons entry shielded ih =>
    obtain ⟨res, reg⟩ := entry
    obtain ⟨hres, hrest⟩ := List.forall_mem_cons.mp h
    obtain ⟨copyCode, hcopy⟩ := Code.copy_isOk hres (res.isAssigned_inRegister reg)
    obtain ⟨restCode, hcode⟩ := ih hrest
    simp only [unshield, hcopy, hcode]
    exact ⟨_, rfl⟩

theorem releaseTemps_succeeds {count : Nat} {g : Frame} {gs : List Frame} (hg : σ.frames = g :: gs)
    (hvalid : g.Valid) (hover : Over count f g) : (releaseTemps count).Succeeds σ := by
  induction count generalizing σ g with
  | zero => exact StepM.succeeds_pure _ _
  | succ count ih =>
    have hsucceeds := (Session.onFrame_succeeds hg).mpr (hvalid.releaseTemp_succeeds hover.1)
    refine hsucceeds.bind fun _ σ₁ hrelease => ?_
    obtain ⟨g₁, hg₁, hrun⟩ := (onFrame_ok hrelease).1.frames hg
    exact ih hg₁ ((Follows.releaseTemp hrun).valid hvalid) (hover.2 (.refl _) hrun)

theorem operands_keep (hargs : ∀ arg ∈ args, arg.Lowers signatures) :
    ∀ operand ∈ args.map Expr.operand, operand.Keeps Rests := by
  intro operand hoperand
  obtain ⟨arg, harg, rfl⟩ := List.mem_map.mp hoperand
  exact (hargs arg harg).keeps

theorem arguments_succeeds (hargs : ∀ arg ∈ args, arg.Lowers signatures)
    (hlength : args.length ≤ regs.length) (h : σ.Hosts signatures f) :
    (arguments (args.map Expr.operand) regs).Succeeds σ ↔
      ∀ arg ∈ args, arg.Accepted signatures f.names := by
  have hkeeps := operands_keep hargs
  have hsplit : (∀ arg ∈ args, arg.Accepted signatures f.names) ↔
      (∀ arg ∈ args, arg.containsCalls = true → arg.Accepted signatures f.names) ∧
        ∀ arg ∈ args, arg.containsCalls = false → arg.Accepted signatures f.names := by
    refine ⟨fun hall => ⟨fun arg harg _ => hall arg harg, fun arg harg _ => hall arg harg⟩,
      fun ⟨hcalls, hquiet⟩ arg harg => ?_⟩
    cases hcontains : arg.containsCalls with
    | true => exact hcalls arg harg hcontains
    | false => exact hquiet arg harg hcontains
  rw [arguments, hsplit]
  refine succeeds_bind_iff (shield_succeeds hargs hlength h) fun ⟨shieldCode, shielded⟩ σ₁ hshield => ?_
  obtain ⟨hfollows, hassigned⟩ := shield_follows hkeeps hshield
  obtain ⟨f₁, h₁, hnames⟩ := h.advances hfollows Follows.sound
  obtain ⟨fs, hf⟩ := h.frames
  obtain ⟨f₁', hf₁', hover, -⟩ := (shield_advances Frame.growth_rests hkeeps hshield).frames hf
  obtain ⟨fs₁, hf₁⟩ := h₁.frames
  cases hf₁.symm.trans hf₁'
  rw [← hnames.names, ← direct_succeeds hargs hlength h₁]
  refine succeeds_bind_left fun directCode σ₂ hdirect => ?_
  obtain ⟨f₂, h₂, hrest₂⟩ := h₁.rests (direct_advances Frame.growth_rests hkeeps hdirect)
  obtain ⟨fs₂, hf₂⟩ := h₂.frames
  obtain ⟨copyCode, hcopy⟩ := unshield_isOk hassigned
  have hrelease := releaseTemps_succeeds hf₂ h₂.sound.valid (hover.rests hrest₂)
  exact succeeds_lift_bind.mpr ⟨copyCode, hcopy, hrelease.bind fun _ _ _ => StepM.succeeds_pure _ _⟩

/-! ## Calls -/

theorem result_isOk (ty : Ty) {target : Option Reservation}
    (htarget : ∀ res ∈ target, res.isAssigned = true) : ∃ code, result ty target = .ok code := by
  cases target with
  | none => exact ⟨_, rfl⟩
  | some res => exact Code.copy_isOk (Reservation.isAssigned_ofReg _ _) (htarget res rfl)

theorem checkArguments_iff (callee : String) {params : List Param}
    (hlength : params.length = args.length) :
    checkArguments callee params (args.map Expr.operand) = .ok () ↔
      List.Forall₂ (fun param arg => param.accepts arg = true) (params.map Param.ty)
        (args.map Expr.ty) := by
  induction params generalizing args with
  | nil =>
    cases args with
    | nil => exact iff_of_true rfl .nil
    | cons arg args => cases hlength
  | cons param params ih =>
    cases args with
    | nil => cases hlength
    | cons arg args =>
      rw [List.map_cons, List.map_cons, List.map_cons, List.forall₂_cons, checkArguments,
        ← ih (Nat.succ.inj hlength)]
      cases haccepts : param.ty.accepts arg.operand.ty with
      | true => exact (and_iff_right haccepts).symm
      | false => exact iff_of_false nofun fun h => Bool.false_ne_true (haccepts.symm.trans h.1)

theorem checkCall_iff {signature : Signature} {target : Option Reservation} :
    checkCall signature (args.map Expr.operand) target = .ok () ↔
      List.Forall₂ (fun param arg => param.accepts arg = true) (signature.params.map Param.ty)
          (args.map Expr.ty) ∧
        (target.isSome = true → signature.returnTy.isVoid = false) := by
  by_cases hlength : signature.params.length = args.length
  · rw [← checkArguments_iff signature.name hlength, checkCall]
    rw [if_neg (by rw [List.length_map]; exact not_not_intro hlength)]
    cases hcheck : checkArguments signature.name signature.params (args.map Expr.operand) with
    | error e => exact iff_of_false nofun fun h => nomatch h.1
    | ok u =>
      cases target with
      | none => exact iff_of_true rfl ⟨rfl, nofun⟩
      | some res =>
        simp only [Option.isSome_some, Bool.true_and, true_imp_iff]
        cases signature.returnTy.isVoid with
        | true => exact iff_of_false nofun fun h => nomatch h.2
        | false => exact iff_of_true rfl ⟨trivial, rfl⟩
  · rw [checkCall, if_pos (by rwa [List.length_map])]
    refine iff_of_false nofun fun h => hlength ?_
    simpa only [List.length_map] using h.1.length_eq

theorem argRegisters_isOk {count : Nat} :
    (∃ regs, argRegisters count = .ok regs) ↔ count ≤ Register.argBank.length := by
  rw [argRegisters]
  split
  · exact iff_of_true ⟨_, rfl⟩ ‹_›
  · refine iff_of_false ?_ ‹_›
    rintro ⟨_, h⟩
    cases h

theorem transfer_succeeds (callee : String) (returnTy : Ty) (argCode : Code) {target : Option Reservation}
    (htarget : ∀ res ∈ target, res.isAssigned = true) (h : σ.Hosts signatures f) :
    (do let live ← onFrame (Frame.liveTempRegs <$> get)
        let label := (← get).options.functionLabel callee
        modify Session.recordCall
        modify (Session.recordSaves live.length)
        let resultCode ← result returnTy target
        return argCode ++ Code.saveRegs live ++ Code.ofInstrs [.bl label] ++
          Code.restoreRegs live ++ resultCode : CompileM Code).Succeeds σ := by
  obtain ⟨resultCode, hresult⟩ := result_isOk returnTy htarget
  have hlive : (onFrame (Frame.liveTempRegs <$> get)).Succeeds σ := h.onFrame_succeeds.mpr ⟨_, _, rfl⟩
  refine hlive.bind fun live σ₁ _ => ?_
  simp only [StepM.Succeeds, StepM.run_bind, StepM.run_get, StepM.run_modify, StepM.run_monadLift,
    hresult]
  exact ⟨_, _, rfl⟩

theorem functionCall_succeeds {callee : String} {target : Option Reservation}
    (hargs : ∀ arg ∈ args, arg.Lowers signatures) (htarget : ∀ res ∈ target, res.isAssigned = true)
    (h : σ.Hosts signatures f) :
    (functionCall callee (args.map Expr.operand) target).Succeeds σ ↔
      (∃ signature ∈ signatures, signature.name = callee ∧ signature.Takes args) ∧
        (target.isSome = true → ∀ signature ∈ signatures, signature.name = callee →
          signature.returnTy.isVoid = false) ∧
        ∀ arg ∈ args, arg.Accepted signatures f.names := by
  have hkeeps := operands_keep hargs
  cases hfound : (Session.newest? σ.declared callee).or (Session.newest? σ.defined callee) with
  | none =>
    refine iff_of_false ?_ ?_
    · rintro ⟨code, τ, hrun⟩
      obtain ⟨signature, _, _, _, _, _, _, hsignature, -⟩ := functionCall_ok hrun
      cases hfound.symm.trans hsignature
    · rintro ⟨⟨signature, hmem, rfl, -⟩, -⟩
      obtain ⟨found, hsome⟩ := h.knows.complete signature hmem
      cases hfound.symm.trans hsome
  | some signature =>
    obtain ⟨hmem, rfl⟩ := h.knows.sound hfound
    have hlookup : (Session.signatureOf signature.name).run σ = (.ok signature, σ) := by
      simp [Session.signatureOf, hfound]
    rw [h.knows.takes_iff hmem, h.knows.yields_iff hmem, functionCall,
      StepM.succeeds_bind_of_ok hlookup, succeeds_lift_bind]
    obtain ⟨g, hmark, hrest⟩ := h.rests (Session.markUsed_advances signature.name σ)
    have hregs : ∀ {regs : List Register}, argRegisters (args.map Expr.operand).length = .ok regs →
        args.length ≤ regs.length := by
      intro regs hregs
      rw [List.length_map] at hregs
      exact Nat.le_of_eq (length_of_argRegisters hregs).symm
    have hrun : ∀ {regs : List Register}, argRegisters (args.map Expr.operand).length = .ok regs →
        ((arguments (args.map Expr.operand) regs).Succeeds (Session.markUsed signature.name σ) ↔
          ∀ arg ∈ args, arg.Accepted signatures f.names) := by
      intro regs hok
      rw [arguments_succeeds hargs (hregs hok) hmark, (Follows.of_rests hrest).names]
    constructor
    · rintro ⟨_, hcheck, hsucceeds⟩
      rw [StepM.succeeds_bind_of_ok (StepM.run_modify _ σ), succeeds_lift_bind] at hsucceeds
      obtain ⟨regs, hok, hsucceeds⟩ := hsucceeds
      obtain ⟨argCode, σ₁, hargCode, -⟩ := StepM.succeeds_bind.mp hsucceeds
      obtain ⟨hforall, hvoid⟩ := checkCall_iff.mp hcheck
      have hcount := argRegisters_isOk.mp ⟨regs, hok⟩
      rw [List.length_map] at hcount
      exact ⟨⟨hcount, hforall⟩, hvoid, (hrun hok).mp (.of_ok hargCode)⟩
    · rintro ⟨⟨hcount, hforall⟩, hvoid, haccepted⟩
      obtain ⟨regs, hok⟩ := argRegisters_isOk.mpr
        (show (args.map Expr.operand).length ≤ _ by rwa [List.length_map])
      refine ⟨(), checkCall_iff.mpr ⟨hforall, hvoid⟩, ?_⟩
      rw [StepM.succeeds_bind_of_ok (StepM.run_modify _ σ), succeeds_lift_bind]
      refine ⟨regs, hok, ((hrun hok).mpr haccepted).bind fun argCode σ₁ hargCode => ?_⟩
      obtain ⟨f₁, h₁, -⟩ := hmark.rests (arguments_advances Frame.growth_rests hkeeps hargCode)
      exact transfer_succeeds signature.name signature.returnTy argCode htarget h₁

theorem trapOperands_succeeds {number : Expr} (hnumber : number.Lowers signatures)
    (hargs : ∀ arg ∈ args, arg.Lowers signatures) (hlength : args.length ≤ regs.length)
    (h : σ.Hosts signatures f) :
    (trapOperands number.operand (args.map Expr.operand) regs).Succeeds σ ↔
      number.Accepted signatures f.names ∧ ∀ arg ∈ args, arg.Accepted signatures f.names := by
  have hkeeps := operands_keep hargs
  cases hcalls : number.containsCalls with
  | false =>
    simp only [trapOperands, Expr.operand, hcalls, Bool.false_eq_true, if_false]
    rw [and_comm]
    refine succeeds_bind_iff (arguments_succeeds hargs hlength h) fun argCode σ₁ hargCode => ?_
    obtain ⟨f₁, h₁, hrest⟩ := h.rests (arguments_advances Frame.growth_rests hkeeps hargCode)
    rw [← (Follows.of_rests hrest).names, ← hnumber.succeeds (Reservation.isAssigned_ofReg .int _) h₁]
    exact succeeds_bind_left fun _ _ _ => StepM.succeeds_pure _ _
  | true =>
    simp only [trapOperands, Expr.operand, hcalls, if_true]
    have hreserve : (onFrame (Frame.reserveTemp .int)).Succeeds σ :=
      h.onFrame_succeeds.mpr (Frame.reserveTemp_succeeds.mpr (by decide))
    refine hreserve.bind_iff fun res σ₁ hres => ?_
    obtain ⟨f₁, h₁, hrun₁⟩ := h.reserveTemp hres
    obtain ⟨hassigned, -⟩ := Frame.reserveTemp_assigned hrun₁
    rw [← (Follows.reserveTemp hrun₁).names]
    refine succeeds_bind_iff (hnumber.succeeds hassigned h₁) fun numberCode σ₂ hcode => ?_
    obtain ⟨f₂, h₂, hrest₂⟩ := h₁.rests (hnumber.keeps _ hcode)
    rw [← (Follows.of_rests hrest₂).names]
    rw [← arguments_succeeds hargs hlength h₂]
    refine succeeds_bind_left fun argCode σ₃ hargCode => ?_
    obtain ⟨f₃, h₃, hrest₃⟩ := h₂.rests (arguments_advances Frame.growth_rests hkeeps hargCode)
    obtain ⟨copyCode, hcopy⟩ :=
      Code.copy_isOk hassigned (Reservation.isAssigned_ofReg .int .trapNumber)
    have hne : f₃.temporaries ≠ [] := by
      rw [hrest₃.temporaries, hrest₂.temporaries]
      exact Frame.reserveTemp_ne_nil hrun₁
    exact succeeds_lift_bind.mpr ⟨copyCode, hcopy, (h₃.releaseTemp_succeeds hne).bind
      fun _ _ _ => StepM.succeeds_pure _ _⟩

theorem trap_succeeds {target : Option Reservation} (hargs : ∀ arg ∈ args, arg.Lowers signatures)
    (htarget : ∀ res ∈ target, res.isAssigned = true) (h : σ.Hosts signatures f) :
    (trap (args.map Expr.operand) target).Succeeds σ ↔
      (args ≠ [] ∧ args.length ≤ Register.argBank.length + 1) ∧
        ∀ arg ∈ args, arg.Accepted signatures f.names := by
  cases args with
  | nil => exact iff_of_false (StepM.succeeds_throw _ _) fun haccepted => haccepted.1.1 rfl
  | cons number args =>
    obtain ⟨hnumber, hargs⟩ := List.forall_mem_cons.mp hargs
    have hcount : number :: args ≠ [] ∧ (number :: args).length ≤ Register.argBank.length + 1 ↔
        ∃ regs, argRegisters (args.map Expr.operand).length = .ok regs := by
      rw [argRegisters_isOk, List.length_map, List.length_cons, Nat.add_le_add_iff_right]
      exact and_iff_right (List.cons_ne_nil _ _)
    rw [hcount, List.forall_mem_cons, List.map_cons, trap, succeeds_lift_bind]
    have hrest : ∀ {regs : List Register}, argRegisters (args.map Expr.operand).length = .ok regs →
        ((do let code ← trapOperands number.operand (args.map Expr.operand) regs
             modify Session.recordCall
             let resultCode ← result .int target
             return code ++ Code.ofInstrs [.svc trapImm] ++ resultCode : CompileM Code).Succeeds σ ↔
          number.Accepted signatures f.names ∧ ∀ arg ∈ args, arg.Accepted signatures f.names) := by
      intro regs hok
      rw [List.length_map] at hok
      have hlength := Nat.le_of_eq (length_of_argRegisters hok).symm
      rw [← trapOperands_succeeds hnumber hargs hlength h]
      refine succeeds_bind_left fun code σ₁ _ => ?_
      obtain ⟨resultCode, hresult⟩ := result_isOk .int htarget
      simp only [StepM.Succeeds, StepM.run_bind, StepM.run_modify, StepM.run_monadLift, hresult]
      exact ⟨_, _, rfl⟩
    constructor
    · rintro ⟨regs, hok, hsucceeds⟩
      exact ⟨⟨regs, hok⟩, (hrest hok).mp hsucceeds⟩
    · rintro ⟨⟨regs, hok⟩, haccepted⟩
      exact ⟨regs, hok, (hrest hok).mpr haccepted⟩

theorem call_succeeds {callee : String} {target : Option Reservation}
    (hargs : ∀ arg ∈ args, arg.Lowers signatures) (htarget : ∀ res ∈ target, res.isAssigned = true)
    (h : σ.Hosts signatures f) :
    (call callee (Expr.operands args) target).Succeeds σ ↔
      Expr.Callable signatures callee args ∧
        (target.isSome = true → Expr.Yields signatures callee) ∧
        ∀ arg ∈ args, arg.Accepted signatures f.names := by
  rw [Expr.operands_eq_map, call, Expr.Callable]
  split
  case isTrue hcallee =>
    rw [trap_succeeds hargs htarget h, and_iff_right (a := target.isSome = true → _)]
    exact fun _ hne => absurd hcallee hne
  case isFalse hcallee =>
    rw [functionCall_succeeds hargs htarget h]
    simp only [Expr.Yields, ne_eq, hcallee, not_false_eq_true, true_imp_iff]

end Lower

/-! ## All expressions -/

namespace Expr

theorem Proper.storable (hsized : ∀ signature ∈ signatures, signature.Sized) {expr : Expr}
    (hproper : expr.Proper signatures) (hchecked : expr.Checked) (htyped : expr.WellTyped)
    {scope : List String} (hcalls : expr.containsCalls = true)
    (haccepted : expr.Accepted signatures scope) : 0 < expr.ty.size := by
  cases expr with
  | deref pointer ty => exact Ty.storable_iff.mp (htyped.2 ▸ (UnOp.storable_of_accepts hchecked.2).2)
  | binary op lhs rhs ty =>
    exact Ty.storable_iff.mp (htyped.2.2 ▸ (BinOp.storable_of_accepts hchecked.2.2).2.2)
  | unary op operand ty =>
    exact Ty.storable_iff.mp (htyped.2 ▸ (UnOp.storable_of_accepts hchecked.2.1).2)
  | call callee args ty =>
    obtain ⟨hty, -⟩ := hproper
    obtain ⟨hcallable, hyields, -⟩ := haccepted
    rw [Callable] at hcallable
    split at hty
    · rw [Expr.ty, hty]
      decide
    case isFalse hcallee =>
      rw [if_neg hcallee] at hcallable
      obtain ⟨callable, hcallable, hcallee', -⟩ := hcallable
      obtain ⟨signature, hmem, hname, hty⟩ := hty callable hcallable hcallee'
      rw [Expr.ty, hty]
      exact Ty.storable_iff.mp ((hsized signature hmem).returnTy (hyields hcallee signature hmem hname))
  | array elements ty => exact haccepted.elim
  | _ => cases hcalls

theorem Proper.arrayFree {expr : Expr} (h : expr.Proper signatures) : expr.arrayFree = true := by
  induction expr using Expr.induct with
  | deref pointer ty ih => exact ih h
  | call callee args ty ih =>
    exact allArrayFree_eq_true.mpr fun arg harg => ih arg harg (allProper_iff.mp h.2 arg harg)
  | binary op lhs rhs ty ihl ihr => exact Bool.and_eq_true_iff.mpr ⟨ihl h.1, ihr h.2⟩
  | unary op operand ty ih => exact ih h
  | array elements ty ih => exact h.elim
  | _ => rfl

theorem Proper.lowers_of (hsized : ∀ signature ∈ signatures, signature.Sized) {expr : Expr}
    (hproper : expr.Proper signatures) (hchecked : expr.Checked) (htyped : expr.WellTyped)
    (hsucceeds : ∀ {target σ f}, target.isAssigned = true → σ.Hosts signatures f →
      ((expr.lower target).Succeeds σ ↔ expr.Accepted signatures f.names)) : expr.Lowers signatures :=
  ⟨Expr.operand_rests hproper.arrayFree, hsucceeds,
    hproper.storable hsized hchecked htyped⟩

/-- A checked expression is lowered exactly if it is accepted. -/
theorem Proper.lowers (hsized : ∀ signature ∈ signatures, signature.Sized) {expr : Expr}
    (hproper : expr.Proper signatures) (hchecked : expr.Checked) (htyped : expr.WellTyped) :
    expr.Lowers signatures := by
  induction expr using Expr.induct with
  | literal value ty =>
    refine hproper.lowers_of hsized hchecked htyped fun htarget h => ?_
    exact iff_of_true (StepM.succeeds_lift.mpr (Code.putConstant_isOk htarget _)) trivial
  | var name ty =>
    refine hproper.lowers_of hsized hchecked htyped fun htarget h => ?_
    rw [Accepted, ← Lower.resolve_succeeds name h]
    exact succeeds_bind_left fun slot τ _ =>
      StepM.succeeds_lift.mpr (Code.copy_isOk slot.isAssigned_reservation htarget)
  | deref pointer ty ih =>
    refine hproper.lowers_of hsized hchecked htyped fun htarget h => ?_
    exact Lower.unary_succeeds (ih hproper hchecked.1 htyped.1) hchecked.2 nofun htarget h
  | call callee args ty ih =>
    refine hproper.lowers_of hsized hchecked htyped fun htarget h => ?_
    have hargs : ∀ arg ∈ args, arg.Lowers signatures := fun arg harg =>
      ih arg harg (allProper_iff.mp hproper.2 arg harg) (allChecked_iff.mp hchecked arg harg)
        (allWellTyped_iff.mp htyped arg harg)
    rw [Expr.lower, Lower.call_succeeds hargs (by rintro _ ⟨⟩; exact htarget) h, Accepted,
      allAccepted_iff]
    simp only [Option.isSome_some, true_imp_iff]
  | binary op lhs rhs ty ihl ihr =>
    refine hproper.lowers_of hsized hchecked htyped fun htarget h => ?_
    obtain ⟨hl, hr, haccepts⟩ := hchecked
    obtain ⟨htl, htr, rfl⟩ := htyped
    exact Lower.binary_succeeds (ihl hproper.1 hl htl) (ihr hproper.2 hr htr) haccepts
      (Ty.storable_iff.mp (BinOp.storable_of_accepts haccepts).2.2) htarget h
  | unary op operand ty ih =>
    refine hproper.lowers_of hsized hchecked htyped fun htarget h => ?_
    obtain ⟨hoperand, haccepts, hvar⟩ := hchecked
    rw [Expr.lower]
    split
    case isTrue hop =>
      have hisVar := hvar hop
      cases operand with
      | var name ty => exact Lower.addressOf_succeeds htarget h
      | _ => cases hisVar
    case isFalse hop => exact Lower.unary_succeeds (ih hproper hoperand htyped.1) haccepts hop htarget h
  | array elements ty ih => exact hproper.elim
  | str text ty =>
    refine hproper.lowers_of hsized hchecked htyped fun htarget h => ?_
    exact iff_of_true (Lower.string_succeeds htarget text _) trivial
  | empty ty => exact hproper.elim

end Expr

end ArmBackend
