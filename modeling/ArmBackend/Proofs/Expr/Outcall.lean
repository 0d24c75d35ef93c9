import ArmBackend.Proofs.Expr.Marshal

/-!
# Calls in any frame

The code of a call, run where its functions and traps may do whatever the calling convention lets them:
every branch of it finds its operands in their registers, the target gets the result, and whatever else
is live keeps its value.
-/

namespace ArmBackend

open Session (onFrame Advances onFrame_ok)

namespace Hosted

variable {S : Hosted} {σ τ : Session} {f g : Frame} {fs : List Frame} {m m' s t u : State}
  {past visits : List Visit} {args : List Expr} {code : Code}

/-! ## Branches -/

theorem Before.pointer_toNat (h : S.Before f m s) :
    (s.regs .stackPointer).toNat + S.extent = (s.regs .framePointer).toNat := by
  have hroom := S.room
  have hlt := S.framePointer.isLt
  rw [h.stackPointer, h.framePointer, BitVec.toNat_sub, BitVec.toNat_ofNat]
  omega

theorem Before.bounds (h : S.Before f m s) {a : Word}
    (ha : ¬ Scratch (s.regs .framePointer) f.position everywhere a) :
    (s.regs .stackPointer).toNat ≤ a.toNat ∧ a.toNat ≤ (s.regs .framePointer).toNat := by
  have hpointer := h.pointer_toNat
  have hposition := h.position
  have hroom := S.room
  have hlt := (s.regs .framePointer).isLt
  have ha' := a.isLt
  rw [← h.framePointer] at hroom
  simp only [Scratch, below, everywhere, BitVec.toNat_sub, not_and, Nat.not_le] at ha
  omega

theorem Before.stackAligned (h : S.Before f m s) : s.StackAligned := by
  rw [State.StackAligned, h.stackPointer]
  exact S.aligned

/-- The outcome of a branch that is taken with the registers `passed` as in `s`. -/
structure Visited (S : Hosted) (g : Frame) (gate : Gate) (passed : List Register) (s : State)
    (visit : Visit) (t : State) : Prop where
  gate : visit.gate = gate
  before : ∀ reg ∈ passed, visit.before.regs reg = s.regs reg
  result : t.regs .result = visit.after.regs .result
  mirrors : S.Mirrors visit.after t
  only : ChangesOnly (g.Clobbers true) (Scratch (s.regs .framePointer) g.position everywhere) s t

theorem traces_bl (hbefore : S.Before g m s) (label : Label) :
    Code.Traces S.host (Code.saveRegs g.liveTempRegs ++
      (Code.ofInstrs [.bl label] ++ Code.restoreRegs g.liveTempRegs)) past s fun visits t =>
        ∃ visit, visits = [visit] ∧ S.Visited g (.call label) Register.argBank s visit t := by
  have hpointer := hbefore.pointer_toNat
  have hroom := S.room
  have hsave := Setting.saveSize_liveTempRegs g
  rw [← hbefore.framePointer] at hroom
  have hsp : .stackPointer ∉ g.liveTempRegs := fun h => by
    simpa [Register.mem_tempBank] using (Setting.liveTempRegs_subset.mp h).1
  refine Code.traces_append_of_ensures
    (Code.ensures_saveRegs hbefore.stackAligned hsp (by omega)) fun s₁ hsaved => ?_
  obtain ⟨hdeeper, -, hback⟩ := hsaved
  have hpointer₁ := hdeeper.pointer_toNat (by omega)
  have hfp₁ : s₁.regs .framePointer = s.regs .framePointer := hdeeper.reg _ (by decide)
  have howns : ∀ a : Word, (s₁.regs .stackPointer).toNat ≤ a.toNat →
      a.toNat ≤ (s.regs .framePointer).toNat → s₁.Owns a := fun a hlow hhigh =>
    ⟨hlow, by rw [hfp₁]; simp only [saveSlotSize]; omega⟩
  refine (Code.traces_branch (Q := fun visits t₁ => visits = [⟨.call label, s₁, t₁⟩] ∧
    ChangesOnly (Gate.call label).Spoils (fun a => ¬ s₁.Owns a) s₁ t₁) rfl
    ⟨rfl, S.conforms past _ s₁⟩).append fun visits t₁ ht₁ => ?_
  obtain ⟨hvisits, hreply⟩ := ht₁
  have hreturns : ReturnsWithin (saveSize g.liveTempRegs.length) s₁ t₁ := by
    refine ⟨hreply.reg _ (by rintro (h | h) <;> cases h), fun a ha hlt => hreply.byte a ?_⟩
    exact not_not_intro (howns a ha (by omega))
  refine Code.traces_of_ensures (hback t₁ hreturns) fun t ht => ⟨⟨.call label, s₁, t₁⟩, ?_, ?_⟩
  · rw [hvisits]
    rfl
  refine ⟨rfl, fun reg hreg => ?_, ?_, fun a _ => congrFun ht.mem a, fun reg hreg => ?_,
    fun a ha => ?_⟩
  · obtain ⟨index, rfl⟩ := Register.mem_argBank.mp hreg
    exact hdeeper.reg _ (by simp)
  · refine ht.other _ (fun h => ?_) (by decide)
    simpa [Register.mem_tempBank, Register.result] using (Setting.liveTempRegs_subset.mp h).1
  · by_cases hlive : reg ∈ g.liveTempRegs
    · exact ht.saved reg hlive
    · rcases (Setting.kept_of_not_clobbers hreg).resolve_left hlive with rfl | hkept
      · exact ht.pointer
      · rw [ht.other reg hlive hkept.ne_stackPointer, hreply.reg reg (hkept.not_spoils label),
          hdeeper.reg reg hkept.ne_stackPointer]
  · obtain ⟨hlow, hhigh⟩ := hbefore.bounds ha
    rw [ht.mem, hreply.byte a (not_not_intro (howns a (by omega) hhigh)), hdeeper.byte a hlow]

theorem traces_svc (hbefore : S.Before g m s) (imm : Nat) :
    Code.Traces S.host (Code.ofInstrs [.svc imm]) past s fun visits t =>
      ∃ visit, visits = [visit] ∧
        S.Visited g .trap (.trapNumber :: Register.argBank) s visit t := by
  have hreply := S.conforms past .trap s
  refine Code.traces_branch rfl ⟨_, rfl, rfl, fun _ _ => rfl, rfl, fun _ _ => rfl, ?_, ?_⟩
  · refine fun reg hreg => hreply.reg reg fun hresult => hreg ?_
    exact Setting.clobbers_arg (hresult ▸ Register.mem_argBank.mpr ⟨0, rfl⟩)
  · intro a ha
    obtain ⟨hlow, hhigh⟩ := hbefore.bounds ha
    refine hreply.byte a (not_not_intro ⟨hlow, ?_⟩)
    simp only [saveSlotSize]
    omega

/-! ## Calls -/

structure Performs (S : Hosted) (callee : String) (args : List Expr) (f : Frame) (m s : State)
    (visits : List Visit) (m' t : State) : Prop where
  evaluates : ∀ ty, S.Evaluates (.call callee args ty) m visits (t.regs .result) m'
  mirrors : S.Mirrors m' t
  only : ChangesOnly (f.Clobbers true) (Scratch (s.regs .framePointer) f.position everywhere) s t

theorem Places.performs {callee : String} {regs : List Register} {visit : Visit}
    (hplaces : S.Places args regs f m s visits m' t) (hwithin : f.Within g)
    (hposition : g.position = f.position) (hregs : regs <+: Scene.operandRegs callee)
    (hvisited : S.Visited g (S.gate callee) (Scene.operandRegs callee) t visit u) :
    S.Performs callee args f m s (visits ++ [visit]) visit.after u where
  evaluates := fun ty => by
    have hoperands : (Scene.operandRegs callee).map visit.before.regs =
        (Scene.operandRegs callee).map t.regs := List.map_congr_left hvisited.before
    rw [hvisited.result]
    exact .call hplaces.arguments ⟨hvisited.gate, hoperands ▸ hregs.map t.regs⟩ ty
  mirrors := hvisited.mirrors
  only := by
    have honly := hvisited.only
    rw [hplaces.only.reg _ (Frame.not_clobbers_framePointer _ _), hposition] at honly
    exact hplaces.only.trans (honly.mono (fun _ => hwithin.clobbers) fun _ => id)

theorem Places.before {regs : List Register} (hbefore : S.Before f m s)
    (hplaces : S.Places args regs f m s visits m' t) (hrest : Frame.Rests f g) : S.Before g m' t :=
  hbefore.of_only hrest.within (hrest.position ▸ hbefore.position)
    (Frame.not_clobbers_framePointer _ _) (Frame.not_clobbers_stackPointer _ _) hplaces.only
    hplaces.mirrors

theorem argRegisters_ok {count : Nat} {regs : List Register} (h : argRegisters count = .ok regs) :
    regs <+: Register.argBank ∧ regs.Nodup := by
  rw [argRegisters] at h
  split at h <;> cases h
  exact ⟨List.take_prefix _ _, List.Nodup.sublist (List.take_sublist _ _) (by decide)⟩

theorem traces_functionCall {callee : String} {target : Option Reservation} (past : List Visit)
    (hne : callee ≠ trapCallee) (hfollows : ∀ arg ∈ args, S.Follows arg)
    (hfree : ∀ arg ∈ args, arg.arrayFree = true)
    (h : (Lower.functionCall callee (args.map Expr.operand) target).run σ = (.ok code, τ))
    (hf : σ.frames = f :: fs) (hafter : S.setting.After τ) (hbefore : S.Before f m s) :
    ∃ callCode resultCode ty, code = callCode ++ resultCode ∧
      Lower.result ty target = .ok resultCode ∧
      Code.Traces S.host callCode past s fun visits t =>
        ∃ m', S.Performs callee args f m s visits m' t := by
  obtain ⟨signature, regs, argCode, resultCode, g, gs, σ₁, -, -, hregs, hargCode, hg, hresult, rfl,
    rfl⟩ := Lower.functionCall_ok h
  refine ⟨_, resultCode, signature.returnTy, rfl, hresult, ?_⟩
  have hlength : regs.length = args.length := by
    rw [Lower.length_of_argRegisters hregs, List.length_map]
  obtain ⟨hinitial, hnodup⟩ := argRegisters_ok hregs
  have hafter₁ : S.setting.After σ₁ := ⟨hafter.peak, hafter.texts, hafter.label⟩
  obtain ⟨usedBuiltins, hmark⟩ := Session.markUsed_eq callee σ
  rw [hmark] at hargCode
  obtain ⟨g', hg', hrest⟩ :=
    (Lower.arguments_advances Frame.growth_rests (keeps_operands hfree) hargCode).frames hf
  cases hg.symm.trans hg'
  have hgate : S.gate callee = .call (σ₁.options.functionLabel callee) := by
    have hlabel : σ₁.options.functionLabel = S.label := hafter₁.label
    rw [Scene.gate, if_neg hne, hlabel]
  have hoperands : Scene.operandRegs callee = Register.argBank := if_neg hne
  simp only [List.append_assoc]
  refine (traces_arguments hfollows hfree hlength hnodup (fun reg hreg => hinitial.subset hreg)
    hargCode hf hafter₁ hbefore).append fun visits t ⟨m', hplaces⟩ => ?_
  refine (traces_bl (hplaces.before hbefore hrest) _).mono
    fun visits' u ⟨visit, hvisits, hvisited⟩ => ⟨visit.after, ?_⟩
  rw [hvisits]
  rw [← hgate, ← hoperands] at hvisited
  exact hplaces.performs hrest.within hrest.position (hoperands ▸ hinitial) hvisited

theorem fits_trapNumber (ty : Ty) (f : Frame) : (Reservation.ofReg ty .trapNumber).Fits f := by
  refine ⟨by decide, fun hbank => ?_⟩
  simp [Register.mem_tempBank, Register.trapNumber] at hbank

theorem trapNumber_not_mem {regs : List Register} (hbank : ∀ reg ∈ regs, reg ∈ Register.argBank) :
    Register.trapNumber ∉ regs := fun hmem => by
  simpa [Register.mem_argBank, Register.trapNumber] using hbank _ hmem

theorem Waits.places {number : Expr} {res : Reservation} {f₁ : Frame} {regs : List Register}
    {visits' : List Visit} {v : Word} {m₁ t₁ t₂ t₃ : State} {ty : Ty}
    (hwaits : S.Waits number .int res f f₁ m s visits v m₁ t₁)
    (hcalls : number.containsCalls = true) (hreserves : Reserves f .int res f₁)
    (hbank : ∀ reg ∈ regs, reg ∈ Register.argBank)
    (hplaces : S.Places args regs f₁ m₁ t₁ visits' m' t₂)
    (hput : Code.Put (.ofReg ty .trapNumber) (t₂.read res) t₂ t₃) :
    S.Places (number :: args) (.trapNumber :: regs) f m s (visits ++ visits') m' t₃ where
  arguments := by
    have hkept : t₂.read res = t₁.read res :=
      hreserves.read_eq (Nat.lt_of_le_of_lt hwaits.before.position S.extent_lt) hplaces.only
    have hvalue : t₃.regs .trapNumber = t₁.read res := hput.read.trans hkept
    have hsame : regs.map t₃.regs = regs.map t₂.regs :=
      List.map_congr_left fun reg hreg => hput.only.reg reg fun heq =>
        trapNumber_not_mem hbank (heq ▸ hreg)
    have hwhole : number.ty.Keeps v (t₁.read res) := Or.inl (hwaits.keeps.elim id id)
    rw [List.map_cons, hvalue, hsame]
    exact .shielded hcalls hwaits.evaluates hwhole hplaces.arguments
  mirrors := fun a ha => (hput.only.byte a id).trans (hplaces.mirrors a ha)
  only := by
    have honly₂ := hplaces.only
    rw [hwaits.only.reg _ (Frame.not_clobbers_framePointer _ _)] at honly₂
    refine (hwaits.only.mono (fun _ hreg => hreg.mono fun _ => rfl) fun _ => id).trans
      ((honly₂.mono (fun _ => hreserves.within.clobbers) fun _ hmem =>
        hmem.mono hreserves.within.position (Nat.le_refl _)).trans
      (hput.only.mono (fun _ hreg => Or.inl hreg) fun _ => False.elim))

theorem Places.number {number : Expr} {regs : List Register} {v : Word} {ty : Ty}
    (hplaces : S.Places args regs f m s visits m' t) (hcalls : number.containsCalls = false)
    (hbank : ∀ reg ∈ regs, reg ∈ Register.argBank) (hrest : Frame.Rests f g)
    (hevaluates : S.Evaluates number m' [] v m') (hmirrors : S.Mirrors m' u)
    (hlands : Lands g false everywhere (.ofReg ty .trapNumber) v t u) :
    S.Places (number :: args) (.trapNumber :: regs) f m s visits m' u where
  arguments := by
    have hvalue : u.regs .trapNumber = v := hlands.read
    have hsame : regs.map u.regs = regs.map t.regs := by
      refine List.map_congr_left fun reg hreg => hlands.only.reg reg ?_
      rintro (h | h)
      · exact trapNumber_not_mem hbank (Location.reg.inj h ▸ hreg)
      · exact Setting.not_clobbers_arg (hbank reg hreg) h
    rw [List.map_cons, hvalue, hsame]
    exact .direct hcalls hevaluates hplaces.arguments
  mirrors := hmirrors
  only := by
    have honly := hlands.only
    rw [hplaces.only.reg _ (Frame.not_clobbers_framePointer _ _), hrest.position] at honly
    refine hplaces.only.trans (honly.mono (fun reg hreg => ?_) fun _ ha => ha.resolve_left id)
    rcases hreg with hreg | hreg
    · exact Or.inl (Location.reg.inj hreg).symm
    · exact (hrest.within.clobbers hreg).mono (by rintro ⟨⟩)

theorem traces_trapOperands {number : Expr} {regs : List Register}
    (hfollows : ∀ arg ∈ number :: args, S.Follows arg)
    (hfree : ∀ arg ∈ number :: args, arg.arrayFree = true) (hlength : regs.length = args.length)
    (hregs : regs.Nodup) (hbank : ∀ reg ∈ regs, reg ∈ Register.argBank)
    (h : (Lower.trapOperands number.operand (args.map Expr.operand) regs).run σ = (.ok code, τ))
    (hf : σ.frames = f :: fs) (hafter : S.setting.After τ) (hbefore : S.Before f m s) :
    Code.Traces S.host code past s fun visits t =>
      ∃ m', S.Places (number :: args) (.trapNumber :: regs) f m s visits m' t := by
  have hfollows' := fun arg harg => hfollows arg (List.mem_cons_of_mem number harg)
  have hfree' := fun arg harg => hfree arg (List.mem_cons_of_mem number harg)
  have hnumber := hfollows number List.mem_cons_self
  have hkeeps := keeps_operands hfree'
  rcases Lower.trapOperands_ok h with
    ⟨res, numberCode, argCode, copyCode, σ₁, σ₂, σ₃, hcalls, hres, hcode, hargCode, hcopy, hrelease,
      rfl⟩ | ⟨argCode, numberCode, σ₁, hcalls, hargCode, hcode, rfl⟩
  · have hafter₃ := hafter.of_releaseTemp hrelease
    have hafter₂ := hafter₃.of_advances
      (Lower.arguments_advances Frame.growth_rests hkeeps hargCode) Frame.Rests.highWater
    obtain ⟨f₁, hf₁, hreserves, -, htraces⟩ :=
      hnumber.temp (hfree number List.mem_cons_self) hres hcode hf hafter₂ hbefore
    rw [List.append_assoc]
    refine htraces.append fun visits t₁ ⟨v, m₁, hwaits⟩ => ?_
    refine (traces_arguments hfollows' hfree' hlength hregs hbank hargCode hf₁ hafter₃
      hwaits.before).append fun visits' t₂ ⟨m₂, hplaces⟩ => ?_
    refine Code.traces_of_ensures (Code.ensures_copy hcopy (by decide) fun _ _ => nofun)
      fun t₃ hput => ⟨m₂, ?_⟩
    rw [List.append_nil]
    exact hwaits.places hcalls hreserves hbank hplaces hput
  · obtain ⟨g, hg, hrest⟩ :=
      (Lower.arguments_advances Frame.growth_rests hkeeps hargCode).frames hf
    have hafter₁ : S.setting.After σ₁ := hafter.of_lower hcode
    refine (traces_arguments hfollows' hfree' hlength hregs hbank hargCode hf hafter₁
      hbefore).append fun visits t₁ ⟨m₁, hplaces⟩ => ?_
    refine (hnumber hcode hg hafter (fits_trapNumber _ _) (S.spills_ofReg _ _)
      (hplaces.before hbefore hrest)).mono fun visits' t₂ ⟨v, m₂, hevaluates, hmirrors, hlands⟩ => ?_
    obtain ⟨rfl, rfl⟩ := hevaluates.quiet hcalls
    rw [show number.containsCalls = false from hcalls] at hlands
    rw [List.append_nil]
    exact ⟨m₂, hplaces.number hcalls hbank hrest hevaluates hmirrors hlands⟩

theorem traces_trap {target : Option Reservation} (past : List Visit)
    (hfollows : ∀ arg ∈ args, S.Follows arg)
    (hfree : ∀ arg ∈ args, arg.arrayFree = true)
    (h : (Lower.trap (args.map Expr.operand) target).run σ = (.ok code, τ))
    (hf : σ.frames = f :: fs) (hafter : S.setting.After τ) (hbefore : S.Before f m s) :
    ∃ callCode resultCode ty, code = callCode ++ resultCode ∧
      Lower.result ty target = .ok resultCode ∧
      Code.Traces S.host callCode past s fun visits t =>
        ∃ m', S.Performs trapCallee args f m s visits m' t := by
  obtain ⟨number, rest, regs, operandCode, resultCode, σ₁, heq, hregs, hoperands, hresult, rfl,
    rfl⟩ := Lower.trap_ok h
  obtain ⟨number, args, rfl⟩ : ∃ arg rest, args = arg :: rest := by
    cases args with
    | nil => cases heq
    | cons arg rest => exact ⟨arg, rest, rfl⟩
  cases heq
  have hlength : regs.length = args.length := by
    rw [Lower.length_of_argRegisters hregs, List.length_map]
  obtain ⟨hinitial, hnodup⟩ := argRegisters_ok hregs
  have hafter₁ : S.setting.After σ₁ := ⟨hafter.peak, hafter.texts, hafter.label⟩
  refine ⟨_, resultCode, .int, rfl, hresult, ?_⟩
  refine (traces_trapOperands hfollows hfree hlength hnodup (fun reg hreg => hinitial.subset hreg)
    hoperands hf hafter₁ hbefore).append fun visits t ⟨m', hplaces⟩ => ?_
  refine (traces_svc (hplaces.before hbefore (.refl f)) Lower.trapImm).mono
    fun visits' u ⟨visit, hvisits, hvisited⟩ => ⟨visit.after, ?_⟩
  rw [hvisits]
  exact hplaces.performs (.refl f) rfl ((List.prefix_cons_inj _).mpr hinitial) hvisited

theorem traces_call {callee : String} {target : Option Reservation} (past : List Visit)
    (hfollows : ∀ arg ∈ args, S.Follows arg) (hfree : ∀ arg ∈ args, arg.arrayFree = true)
    (h : (Lower.call callee (args.map Expr.operand) target).run σ = (.ok code, τ))
    (hf : σ.frames = f :: fs) (hafter : S.setting.After τ) (hbefore : S.Before f m s) :
    ∃ callCode resultCode ty, code = callCode ++ resultCode ∧
      Lower.result ty target = .ok resultCode ∧
      Code.Traces S.host callCode past s fun visits t =>
        ∃ m', S.Performs callee args f m s visits m' t := by
  rw [Lower.call] at h
  split at h
  case isTrue heq =>
    subst heq
    exact traces_trap past hfollows hfree h hf hafter hbefore
  case isFalse hne => exact traces_functionCall past hne hfollows hfree h hf hafter hbefore

theorem follows_call {callee : String} (hfollows : ∀ arg ∈ args, S.Follows arg)
    (hfree : ∀ arg ∈ args, arg.arrayFree = true) (ty : Ty) : S.Follows (.call callee args ty) := by
  intro target σ τ code f fs m s past h hf hafter hfits hspills hbefore
  simp only [Expr.lower, Expr.operands_eq_map] at h
  obtain ⟨callCode, resultCode, ty', rfl, hresult, htraces⟩ :=
    traces_call past hfollows hfree h hf hafter hbefore
  refine htraces.append fun visits t ht => ?_
  obtain ⟨m', hperforms⟩ := ht
  have hcopy : Code.Ensures (Code.alone S.host.symbol) resultCode t
      (Leaves target (t.regs .result) target.Touches t) :=
    (Code.ensures_copy hresult hfits.receives.1 (by rintro _ ⟨⟩)).mono fun _ => Code.Put.leaves
  exact hbefore.finish hfits hspills hcopy (hperforms.evaluates ty) hperforms.mirrors
    (hperforms.only.mono (fun _ => Or.inr) fun _ => id)

/-! ## All expressions -/

theorem follows (S : Hosted) (expr : Expr) (hfree : expr.arrayFree = true) : S.Follows expr := by
  induction expr using Expr.induct with
  | literal value ty => exact follows_literal value ty
  | var name ty => exact follows_var name ty
  | deref pointer ty ih => exact (follows_deref (ih hfree) hfree ty).1
  | call callee args ty ih =>
    have hfrees := Expr.allArrayFree_eq_true.mp hfree
    exact follows_call (fun arg harg => ih arg harg (hfrees arg harg)) hfrees ty
  | binary op lhs rhs ty ihl ihr =>
    obtain ⟨hl, hr⟩ := Bool.and_eq_true_iff.mp hfree
    exact follows_binary (ihl hl) (ihr hr) hl hr ty
  | unary op operand ty ih =>
    cases op with
    | addrOf => exact follows_address operand ty
    | deref => exact (follows_deref (ih hfree) hfree ty).2
    | neg => exact follows_unary (ih hfree) hfree (by decide) (by decide) ty
    | not => exact follows_unary (ih hfree) hfree (by decide) (by decide) ty
    | bitNot => exact follows_unary (ih hfree) hfree (by decide) (by decide) ty
  | array elements ty ih => cases hfree
  | str text ty => exact follows_str text ty
  | empty ty => exact follows_empty ty

end Hosted

/-! ## Calls in a function body -/

/-- There are `extent` bytes between the two pointers, and room below them to save the temporaries. -/
structure State.HasFrame (s : State) (extent : Nat) : Prop where
  aligned : s.StackAligned
  pointer : s.regs .stackPointer = s.regs .framePointer - BitVec.ofNat 64 extent
  room : extent + Setting.saveRoom ≤ (s.regs .framePointer).toNat

namespace Frame

/-- What the names in an expression stand for in a frame, once the lowering has ended in `τ`. What the
frame has not taken is spill area. -/
def scene (f : Frame) (τ : Session) (symbol : Label → Word) (extent : Nat) (s : State) : Scene where
  slot name := f.symbols.lookup name
  text text := symbol (τ.data.intern text).1
  label := τ.options.functionLabel
  framePointer := s.regs .framePointer
  low := f.position
  extent := extent

def hosted (f : Frame) (τ : Session) {host : Host} (hhost : host.Conforms) {extent : Nat} {s : State}
    (hs : s.HasFrame extent) : Hosted :=
  { f.scene τ host.symbol extent s with
    host
    conforms := hhost
    aligned := hs.pointer ▸ hs.aligned
    room := hs.room }

/-- The live temporaries and variables apart from the target hold what they held. -/
structure Undisturbed (f : Frame) (target : Option Reservation) (s t : State) : Prop where
  temporaries : ∀ res ∈ f.temporaries, some res ≠ target → t.read res = s.read res
  locals : ∀ slot ∈ f.locals, some slot.reservation ≠ target →
    t.read slot.reservation = s.read slot.reservation
  stackPointer : t.regs .stackPointer = s.regs .stackPointer
  framePointer : t.regs .framePointer = s.regs .framePointer

variable {f : Frame} {calls : Bool} {bound : Nat} {target : Reservation} {v : Word} {s t : State}

theorem scene_fixes (hf : Valid f) (hlt : f.position < 2 ^ 64) (τ : Session) (symbol : Label → Word)
    (extent : Nat) (s : State) : (f.scene τ symbol extent s).Fixes
      (f.context τ.data (extent + Setting.saveRoom) symbol s) s := by
  have hagrees : (f.context τ.data (extent + Setting.saveRoom) symbol s).Agrees f
      (extent + Setting.saveRoom) s := context_agrees hf
  refine ⟨fun {name ty v} hv => ?_, fun {width a v} hv w hread => ?_, fun {name a} ha => ?_, rfl⟩
  · obtain ⟨slot, hlookup, hsize, hle, hposition, hread⟩ := hagrees.value hv
    refine ⟨slot, hlookup, fun w hw => (hw fun b hb hspill => ?_).trans (Eq.trans ?_ hread)⟩
    · have hbyte : slot.reservation.Covers (s.regs .framePointer) b := by
        rw [← slot.eval_offset] at hb
        exact hb
      have hcovers := (Slot.covers_iff hsize hle (by omega)).mp hbyte
      exact absurd hspill.1 (Nat.not_lt.mpr (Nat.le_trans hcovers.2 hposition))
    · rw [← slot.eval_offset]
      rfl
  · obtain ⟨hload, hout⟩ := hagrees.load hv
    exact (hread hout).trans hload
  · obtain ⟨slot, hlookup, rfl⟩ := hagrees.address ha
    exact ⟨slot, hlookup, rfl⟩

/-- An expression has no other evaluation in the scene than the value that it is worth in the frame, whatever
the functions compute. -/
theorem evaluates_eq_eval (hf : Valid f) (hlt : f.position < 2 ^ 64) {τ : Session}
    {symbol : Label → Word} {extent : Nat} {s m : State}
    {call : String → List Word → Option (Option Word)} {expr : Expr} (hexpr : expr.WellTyped)
    {visits : List Visit} {v w : Word}
    (hvisits : ∀ visit ∈ visits, (f.scene τ symbol extent s).Answers
      { f.context τ.data (extent + Setting.saveRoom) symbol s with call } visit)
    (hv : expr.eval { f.context τ.data (extent + Setting.saveRoom) symbol s with call } = some v)
    (h : (f.scene τ symbol extent s).Evaluates expr s visits w m) : w = v := by
  have htyped : (f.context τ.data (extent + Setting.saveRoom) symbol s).Typed := context_typed
  have hfixes := scene_fixes hf hlt τ symbol extent s
  refine (Scene.Evaluates.eq_eval ?_ hexpr ?_ hvisits hv h).1
  · exact ⟨htyped.value, htyped.load⟩
  · exact ⟨hfixes.value, hfixes.load, hfixes.address, hfixes.text⟩

theorem Lands.undisturbed (hf : Valid f) (htarget : f.Offers target) (hlt : f.position < 2 ^ 64)
    (h : Lands f calls bound target v s t) : f.Undisturbed (some target) s t where
  temporaries := fun _ hres hne =>
    Lands.read_temporary hf htarget hlt h hres fun heq => hne (congrArg some heq)
  locals := fun _ hslot hne =>
    Lands.read_slot hf htarget hlt h (mem_slots_of_local hslot) fun heq => hne (congrArg some heq)
  stackPointer := (Lands.pointers hf htarget h).1
  framePointer := (Lands.pointers hf htarget h).2

theorem Undisturbed.of_result (hf : Valid f) {ty : Ty}
    (h : f.Undisturbed (some (.ofReg ty .result)) s t) : f.Undisturbed none s t where
  temporaries := fun res hres _ => h.temporaries res hres <| by
    rintro ⟨⟩
    rcases hf.temporary hres with ⟨reg, hreg, hbank, -⟩ | ⟨slot, -, hslot⟩
    · cases hreg
      simp [Register.mem_tempBank, Register.result] at hbank
    · cases hslot
  locals := fun slot hslot _ => h.locals slot hslot (by rintro ⟨⟩)
  stackPointer := h.stackPointer
  framePointer := h.framePointer

theorem ensures_result {w : World} {ty : Ty} {target : Option Reservation} {code : Code}
    (hf : Valid f) (hlt : f.position < 2 ^ 64) (htarget : ∀ res, target = some res → f.Offers res)
    (h : Lower.result ty target = .ok code)
    (honly : ChangesOnly (f.Clobbers true) (Scratch (s.regs .framePointer) f.position bound) s t) :
    Code.Ensures w code t fun u =>
      (∀ res, target = some res → u.read res = res.keep (t.regs .result)) ∧
        f.Undisturbed target s u := by
  cases target with
  | none =>
    cases h
    have hlands : Lands f true bound (.ofReg ty .result) (t.regs .result) s t :=
      ⟨rfl, honly.mono (fun _ => Or.inr) fun _ => Or.inr⟩
    have hoffers : f.Offers (.ofReg ty .result) :=
      Or.inl ⟨.result, rfl, Or.inl (Register.mem_argBank.mpr ⟨0, rfl⟩)⟩
    exact ⟨nofun, (Lands.undisturbed hf hoffers hlt hlands).of_result hf⟩
  | some res =>
    have hoffers := htarget res rfl
    have hfits := hoffers.fits hf
    refine (Code.ensures_copy h hfits.receives.1 (by rintro _ ⟨⟩)).mono fun u hu => ?_
    have hlands : Lands f true bound res (t.regs .result) s u :=
      hu.leaves.lands hfits (honly.mono (fun _ => Or.inr) fun _ => id)
    refine ⟨?_, Lands.undisturbed hf hoffers hlt hlands⟩
    rintro _ ⟨⟩
    exact hlands.read

end Frame

/-- The code of a call runs to its end, whatever its functions and traps do within the calling
convention. At each of its branches, which are those of an evaluation of the arguments and then that
to the callee, the operands are in their registers. In the end the target holds what it keeps of the
result. An operand that is worth something by `Expr.eval` is evaluated to nothing else
(`Frame.evaluates_eq_eval`). -/
theorem Lower.call_marshals {callee : String} {args : List Expr}
    (hfree : ∀ arg ∈ args, arg.arrayFree = true) {target : Option Reservation} {σ τ : Session}
    {code : Code} {f g : Frame} {fs gs : List Frame} (hf : f.Reachable)
    (htarget : ∀ res, target = some res → f.Offers res) (hσ : σ.frames = f :: fs)
    (h : (Lower.call callee (Expr.operands args) target).run σ = (.ok code, τ))
    (hτ : τ.frames = g :: gs) {host : Host} (hhost : host.Conforms) {extent : Nat}
    (hextent : g.highWater ≤ extent) {s : State} (hs : s.HasFrame extent) (past : List Visit) :
    ∃ visits visit t values m, code.trace host past s = some (visits ++ [visit], t) ∧
      (f.scene τ host.symbol extent s).Arguments args s visits values m ∧
      (f.scene τ host.symbol extent s).Passes callee values visit ∧
      (∀ res, target = some res → t.read res = res.keep (visit.after.regs .result)) ∧
      f.Undisturbed target s t := by
  have hvalid := hf.valid
  rw [Expr.operands_eq_map] at h
  obtain ⟨g', hg', hrest⟩ :=
    (Lower.call_advances Frame.growth_rests (Hosted.keeps_operands hfree) h).frames hσ
  cases hτ.symm.trans hg'
  have hposition : f.position ≤ extent :=
    Nat.le_trans (Nat.le_trans hvalid.highWater hrest.highWater) hextent
  let S := f.hosted τ hhost hs
  have hafter : S.setting.After τ := by
    refine ⟨fun {k ks} hk => ?_, fun {text id} htext => ?_, rfl⟩
    · cases hτ.symm.trans hk
      exact hextent
    · change host.symbol _ = host.symbol _
      simp only [StaticData.intern, htext]
  have hbefore : S.Before f s s :=
    ⟨fun _ => rfl, Nat.le_refl _, hposition, rfl, hs.pointer, fun _ _ => rfl⟩
  have hlt : f.position < 2 ^ 64 := Nat.lt_of_le_of_lt hposition S.extent_lt
  obtain ⟨callCode, resultCode, ty, rfl, hresult, htraces⟩ := Hosted.traces_call past
    (fun arg harg => S.follows arg (hfree arg harg)) hfree h hσ hafter hbefore
  have hwhole : (callCode ++ resultCode).Traces host past s fun visits u => ∃ v m',
      S.Evaluates (.call callee args ty) s visits v m' ∧
      (∀ res, target = some res → u.read res = res.keep v) ∧ f.Undisturbed target s u := by
    refine htraces.append fun visits t ht => ?_
    obtain ⟨m', hperforms⟩ := ht
    refine Code.traces_of_ensures (Frame.ensures_result hvalid hlt htarget hresult hperforms.only)
      fun u hu => ⟨t.regs .result, m', ?_, hu⟩
    rw [List.append_nil]
    exact hperforms.evaluates ty
  obtain ⟨visits, t, htrace, v, m', hevaluates, hread, hundisturbed⟩ := hwhole
  obtain ⟨before, visit, values, m₁, rfl, harguments, hpasses, rfl, -⟩ := hevaluates.of_call
  exact ⟨before, visit, t, values, m₁, htrace, harguments, hpasses, hread, hundisturbed⟩

/-- `f(g(1), 2)` into x8 while x9 is live: g gets 1, and f gets what g returned and 2. -/
theorem Lower.call_marshals_nested :
    let args : List Expr := [.call "g" [.literal (.int 1) .int] .int, .literal (.int 2) .int]
    let f : Frame := Frame.Op.apply (Frame.Op.apply {} (.reserveTemp .int)) (.reserveTemp .int)
    let start : Session :=
      { Session.start {} with
        declared := [⟨.int, "f", [⟨.int, "x"⟩, ⟨.int, "y"⟩]⟩, ⟨.int, "g", [⟨.int, "x"⟩]⟩]
        frames := [f] }
    let target : Reservation := .ofReg .int .indirectResult
    let host : Host := ⟨fun _ => 0, fun _ _ s => s.set .result 7⟩
    let s : State := ⟨fun _ => 4096, fun _ => 0, Flags.compare 0 0⟩
    ∃ code τ inner outer t,
      (Lower.call "f" (Expr.operands args) (some target)).run start = (.ok code, τ) ∧
      code.trace host [] s = some ([inner, outer], t) ∧ inner.before.regs .x0 = 1 ∧
      outer.before.regs .x0 = inner.after.regs .x0 ∧ outer.before.regs .x1 = 2 ∧
      t.regs .indirectResult = outer.after.regs .x0 ∧ t.regs (.temp 0) = 4096 := by
  intro args f start target host s
  have hreachable : f.Reachable := .apply (.reserveTemp .int) (.apply (.reserveTemp .int) .empty)
  have htarget : ∀ res, some target = some res → f.Offers res := by
    rintro _ ⟨⟩
    exact Or.inr (Or.inl (by decide))
  have hhost : host.Conforms := by
    intro past gate s
    refine .set ?_
    cases gate with
    | call label => exact Or.inl trivial
    | trap => exact rfl
  obtain ⟨code, τ, hcode, htest⟩ := StepM.exists_of_any
    ((Lower.call "f" (Expr.operands args) (some target)).run start)
    (fun _ τ => τ.frames.length = 1 ∧ ∀ g ∈ τ.frames, g.highWater = 0) (by decide +kernel)
  obtain ⟨hlength, hpeak⟩ := of_decide_eq_true htest
  obtain ⟨g, hg⟩ := List.length_eq_one_iff.mp hlength
  have hextent : g.highWater ≤ 0 := Nat.le_of_eq (hpeak g (hg ▸ List.mem_singleton_self g))
  obtain ⟨visits, outer, t, values, m, htrace, harguments, ⟨-, houter⟩, hread, hkept⟩ :=
    call_marshals (by decide) hreachable htarget rfl hcode hg hhost hextent (s := s)
      ⟨by decide, by decide, by decide⟩ []
  have hregs : ∀ callee, callee ≠ trapCallee →
      Scene.operandRegs callee = .x0 :: .x1 :: Register.argBank.drop 2 := fun callee hne => if_neg hne
  rw [hregs "f" (by decide)] at houter
  -- The only evaluation of the arguments takes the call of g first.
  simp only [args] at harguments
  cases harguments with
  | direct hcalls => cases hcalls
  | shielded _ harg hkeeps hrest =>
    obtain ⟨visits, inner, values, m, rfl, hinner, ⟨-, hpasses⟩, rfl, rfl⟩ := harg.of_call
    rw [hregs "g" (by decide)] at hpasses
    cases hinner with
    | shielded hcalls => cases hcalls
    | direct _ hone hnil =>
      cases hnil
      cases hone
      cases hrest with
      | shielded hcalls => cases hcalls
      | direct _ htwo hnil =>
        cases hnil
        cases htwo
        obtain ⟨hx0, -⟩ := List.cons_prefix_cons.mp hpasses
        obtain ⟨hx0', hx1⟩ := List.cons_prefix_cons.mp houter
        obtain ⟨hx1, -⟩ := List.cons_prefix_cons.mp hx1
        refine ⟨code, τ, inner, outer, t, hcode, htrace, hx0.symm, ?_, hx1.symm, hread _ rfl, ?_⟩
        · exact hx0'.symm.trans (hkeeps.elim id id)
        · exact hkept.temporaries (.ofReg .int (.temp 0)) (by decide) (by decide)

end ArmBackend
