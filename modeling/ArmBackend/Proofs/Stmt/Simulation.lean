import ArmBackend.Proofs.Stmt.Correct

/-!
# Branches and loops are lowered correctly

The code of every statement of a body leads where the outcome of the statement asks for, however branches
and loops are nested.
-/

namespace ArmBackend

open Session (onFrame Advances onFrame_ok)

theorem Setting.After.of_peaks {S : Setting} {σ τ : Session} (h : S.After τ)
    (hστ : Advances Frame.Peaks σ τ) : S.After σ :=
  h.of_advances hστ Frame.Peaks.highWater

namespace Activation

variable {A : Activation} {fuel : Nat}

/-- The code of the statement leads where the outcome asks for, wherever the code stands. -/
def Simulates (A : Activation) (fuel : Nat) (stmt : Stmt) : Prop :=
  ∀ ⦃σ τ code f fs env outcome s pc⦄, stmt.exec A.setting.ctx fuel env = some outcome →
    (stmt.lower A.signature).run σ = (.ok code, τ) → σ.frames = f :: fs → A.setting.After τ →
    A.image.Hosts pc code → A.Stands f env s → A.Goes f f s pc (pc + code.length) outcome

def SimulatesBlock (A : Activation) (fuel : Nat) (stmts : List Stmt) : Prop :=
  ∀ ⦃σ τ code f fs env outcome s pc⦄, Stmt.execBlock A.setting.ctx fuel stmts env = some outcome →
    (Stmt.lowerBlock A.signature stmts).run σ = (.ok code, τ) → σ.frames = f :: fs →
    A.setting.After τ → A.image.Hosts pc code → A.Stands f env s →
    A.Goes f f s pc (pc + code.length) outcome

/-! ## Blocks -/

theorem simulatesBlock_of {stmts : List Stmt} (hinner : Stmt.AllInner stmts)
    (hstmts : ∀ stmt ∈ stmts, A.Simulates fuel stmt) : A.SimulatesBlock fuel stmts := by
  induction stmts with
  | nil =>
    intro σ τ code f fs env outcome s pc hexec hcode hf hafter hhosts hstands
    cases hcode
    cases hexec
    exact .refl ⟨hstands.laid, .refl s⟩
  | cons stmt stmts ih =>
    intro σ τ code f fs env outcome s pc hexec hcode hf hafter hhosts hstands
    obtain ⟨hstmt, hinner⟩ := hinner
    have ih := ih hinner fun other hother => hstmts other (List.mem_cons_of_mem _ hother)
    obtain ⟨stmtCode, restCode, σ₁, hstmtCode, hrestCode, rfl⟩ := Stmt.block_cons_ok hcode
    obtain ⟨hhosts₁, hhosts₂⟩ := hhosts.append
    obtain ⟨f₁, hf₁, hrest⟩ := (Stmt.lower_rests hstmt hstmtCode).frames hf
    rw [Stmt.execBlock] at hexec
    obtain ⟨first, hfirst, hthen⟩ := Option.bind_eq_some_iff.mp hexec
    have hgoes := hstmts stmt List.mem_cons_self hfirst hstmtCode hf
      (hafter.of_peaks (Stmt.lowerBlock_peaks hrestCode)) hhosts₁ hstands
    rw [List.length_append, ← Nat.add_assoc]
    cases first with
    | next env₁ =>
      obtain ⟨u, hruns, hlaid, hmoves⟩ := hgoes
      have hstands₁ := (hstands.moves hmoves hlaid).of_rests hrest
      have hgoes₁ := ih hthen hrestCode hf₁ hafter hhosts₂ hstands₁
      exact (hgoes₁.of_symbols hrest.symbols hrest.loops hrest.symbols).after_moves
        ⟨u, hruns, rfl⟩ hmoves
    | _ =>
      cases hthen
      exact hgoes

/-! ## Branches -/

theorem simulates_ifElse {cond : Expr} {thenBlock elseBlock : List Stmt} (hplain : cond.Plain)
    (hinner : Stmt.AllInner thenBlock) (hcalls : cond.containsCalls = true → A.calls = true)
    (hthen : A.SimulatesBlock fuel thenBlock) (helse : A.SimulatesBlock fuel elseBlock) :
    A.Simulates fuel (.ifElse cond thenBlock elseBlock) := by
  intro σ τ code f fs env outcome s pc hexec hcode hf hafter hhosts hstands
  obtain ⟨id, condCode, thenCode, elseCode, σ₁, σ₂, σ₃, hid, hcond, hthenCode, helseCode, hlayout⟩ :=
    Stmt.ifElse_ok hcode
  rw [Stmt.exec] at hexec
  obtain ⟨v, hv, hbranch⟩ := Option.bind_eq_some_iff.mp hexec
  -- The frames differ in their peaks only.
  obtain ⟨f₁, hf₁, hrest₁⟩ := (Session.freshIf_advances hid).frames hf
  have hkeeps := Expr.operand_rests hplain.arrayFree
  obtain ⟨f₂, hf₂, hrest₂⟩ := (Lower.condition_advances hkeeps hcond).frames hf₁
  obtain ⟨f₃, hf₃, hrest₃⟩ := (Stmt.lowerBlock_rests hinner hthenCode).frames hf₂
  have hrest := hrest₁.trans hrest₂
  have hrest' := hrest.trans hrest₃
  have hafter₃ := hafter.of_peaks (Stmt.lowerBlock_peaks helseCode)
  have hafter₂ := hafter₃.of_peaks (Stmt.lowerBlock_peaks hthenCode)
  -- The lines in their order.
  rw [hlayout] at hhosts
  obtain ⟨hhosts, hexit⟩ := hhosts.append
  obtain ⟨hhosts, helseHosts⟩ := hhosts.append
  obtain ⟨hcondHosts, hthenHosts⟩ := hhosts.append
  obtain ⟨hbranchLine, hthenHosts⟩ := hthenHosts.cons
  obtain ⟨htrueLine, hthenHosts⟩ := hthenHosts.cons
  obtain ⟨hjumpLine, helseHosts⟩ := helseHosts.cons
  have hfalse := helseHosts.label
  obtain ⟨hfalseLine, helseHosts⟩ := helseHosts.cons
  obtain ⟨hexitLine, -⟩ := hexit.cons
  have hexitAddress := hexit.label
  have hthenEnd : pc + (condCode ++ .instr (.bCond .eq (.ifFalse id)) :: .label (.ifTrue id) ::
      thenCode).length = pc + condCode.length + 1 + 1 + thenCode.length := by
    simp only [List.length_append, List.length_cons]
    omega
  have helseEnd : pc + (condCode ++ .instr (.bCond .eq (.ifFalse id)) :: .label (.ifTrue id) ::
      thenCode ++ .instr (.b (.ifExit id)) :: .label (.ifFalse id) :: elseCode).length =
      pc + condCode.length + 1 + 1 + thenCode.length + 1 + 1 + elseCode.length := by
    simp only [List.length_append, List.length_cons]
    omega
  have hend : pc + code.length =
      pc + condCode.length + 1 + 1 + thenCode.length + 1 + 1 + elseCode.length + 1 := by
    simp only [hlayout, List.length_append, List.length_cons, List.length_nil]
    omega
  rw [hthenEnd] at hjumpLine hfalse hfalseLine helseHosts
  rw [helseEnd] at hexitLine hexitAddress
  rw [hend]
  obtain ⟨u, hruns, hflag, hlaid, hmoves⟩ := (hstands.of_rests hrest₁).reaches_condition hplain hv hcond
    hf₁ hafter₂ hcondHosts.stands hcalls
  have hstands₂ := (hstands.moves hmoves (hlaid.of_symbols hrest₁.symbols.symm)).of_rests hrest
  refine Goes.after_moves ⟨u, hruns, rfl⟩ hmoves ?_
  split at hbranch
  case isTrue hzero =>
    rw [hzero, beq_self_eq_true] at hflag
    have hgoes := helse hbranch helseCode hf₃ hafter helseHosts (hstands₂.of_rests hrest₃)
    have hgoes := hgoes.of_symbols hrest'.symbols hrest'.loops hrest'.symbols
    refine Goes.after_moves ?_ (.refl u) (hgoes.reaches_next fun t => .of_label hexitLine (.refl rfl))
    exact .of_branch_taken hbranchLine hfalse hflag (.of_label hfalseLine (.refl rfl))
  case isFalse hzero =>
    rw [beq_false_of_ne hzero] at hflag
    have hgoes := hthen hbranch hthenCode hf₂ hafter₃ hthenHosts hstands₂
    have hgoes := hgoes.of_symbols hrest.symbols hrest.loops hrest.symbols
    refine Goes.after_moves ?_ (.refl u) (hgoes.reaches_next fun t => ?_)
    · exact .of_branch_passed hbranchLine hflag (.of_label htrueLine (.refl rfl))
    · exact .of_branch hjumpLine hexitAddress (.of_label hexitLine (.refl rfl))

/-! ## Loops -/

theorem simulates_loop {cond : Expr} {body : List Stmt} (hplain : cond.Plain)
    (hcalls : cond.containsCalls = true → A.calls = true) (hbody : A.SimulatesBlock fuel body) :
    A.Simulates fuel (.loop cond body) := by
  intro σ τ code f fs env outcome s pc hexec hcode hf hafter hhosts hstands
  obtain ⟨id, condCode, bodyCode, σ₁, σ₂, hid, hcond, hinLoop, hlayout⟩ := Stmt.loop_ok hcode
  obtain ⟨σ₃, σ₄, hpush, hbodyCode, hpop⟩ := Session.inLoop_ok hinLoop
  -- The frames differ in their peaks, and inside the loop in its id.
  obtain ⟨f₁, hf₁, hrest₁⟩ := (Session.freshLoop_advances hid).frames hf
  have hkeeps := Expr.operand_rests hplain.arrayFree
  obtain ⟨f₂, hf₂, hrest₂⟩ := (Lower.condition_advances hkeeps hcond).frames hf₁
  obtain ⟨f₃, hf₃, hpushed⟩ := (onFrame_ok hpush).1.frames hf₂
  obtain rfl : f₃ = f₂.pushLoop id := by
    cases hpushed
    rfl
  have hrest := hrest₁.trans hrest₂
  have hafter₄ : A.setting.After σ₄ := hafter.of_advances (onFrame_ok hpop).1 fun hrun => by
    cases hrun
    exact Nat.le_refl _
  have hafter₂ : A.setting.After σ₂ :=
    (hafter₄.of_peaks (Stmt.lowerBlock_peaks hbodyCode)).of_advances (onFrame_ok hpush).1
      fun hrun => by
        cases hrun
        exact Nat.le_refl _
  -- The lines in their order.
  rw [hlayout] at hhosts
  obtain ⟨hhosts, hjumpHosts⟩ := hhosts.append
  obtain ⟨hcondHosts, hbodyHosts⟩ := hhosts.append
  have hcondAddress := hcondHosts.label
  obtain ⟨hcondLine, hcondHosts⟩ := hcondHosts.cons
  obtain ⟨hbranchLine, hbodyHosts⟩ := hbodyHosts.cons
  obtain ⟨hbodyLine, hbodyHosts⟩ := hbodyHosts.cons
  obtain ⟨hjumpLine, hexitHosts⟩ := hjumpHosts.cons
  have hexitAddress := hexitHosts.label
  obtain ⟨hexitLine, -⟩ := hexitHosts.cons
  have hcondEnd : pc + (.label (.loopCond id) :: condCode).length = pc + 1 + condCode.length := by
    rw [List.length_cons]
    omega
  have hbodyEnd : pc + (.label (.loopCond id) :: condCode ++ .instr (.bCond .eq (.loopExit id)) ::
      .label (.loopBody id) :: bodyCode).length =
      pc + 1 + condCode.length + 1 + 1 + bodyCode.length := by
    simp only [List.length_append, List.length_cons]
    omega
  have hend : pc + code.length = pc + 1 + condCode.length + 1 + 1 + bodyCode.length + 1 + 1 := by
    simp only [hlayout, List.length_append, List.length_cons, List.length_nil]
    omega
  rw [hcondEnd] at hbranchLine hbodyLine hbodyHosts
  rw [hbodyEnd] at hjumpLine hexitLine hexitAddress
  rw [hend]
  -- One round after the other, from the label of the condition.
  rw [Stmt.exec] at hexec
  obtain ⟨rounds, hrounds⟩ : ∃ rounds, fuel = rounds := ⟨fuel, rfl⟩
  nth_rewrite 2 [hrounds] at hexec
  clear hrounds
  induction rounds generalizing env s with
  | zero => cases hexec
  | succ rounds ih =>
    rw [Stmt.iterate] at hexec
    obtain ⟨round, hround, hexec⟩ := Option.bind_eq_some_iff.mp hexec
    obtain ⟨v, hv, hbranch⟩ := Option.bind_eq_some_iff.mp hround
    obtain ⟨u, hruns, hflag, hlaid, hmoves⟩ := (hstands.of_rests hrest₁).reaches_condition hplain hv
      hcond hf₁ hafter₂ hcondHosts.stands hcalls
    have hlaid := hlaid.of_symbols hrest₁.symbols.symm
    have hstands₂ := (hstands.moves hmoves hlaid).of_rests hrest
    refine Goes.after_moves (.of_label hcondLine ⟨u, hruns, rfl⟩) hmoves ?_
    split at hbranch
    case isTrue hzero =>
      rw [hzero, beq_self_eq_true] at hflag
      cases hbranch
      cases hexec
      exact .of_branch_taken hbranchLine hexitAddress hflag
        (.of_label hexitLine (.refl ⟨hlaid, .refl u⟩))
    case isFalse hzero =>
      rw [beq_false_of_ne hzero] at hflag
      refine Goes.after_moves (.of_branch_passed hbranchLine hflag (.of_label hbodyLine (.refl rfl)))
        (.refl u) ?_
      have hgoes := hbody hbranch hbodyCode hf₃ hafter₄ hbodyHosts (hstands₂.pushLoop id)
      cases round with
      | next env₁ =>
        obtain ⟨w, hruns₁, hlaid₁, hmoves₁⟩ := hgoes
        have hlaid₁ := hlaid₁.of_symbols hrest.symbols.symm
        have hstands₁ := (hstands.moves hmoves hlaid).moves hmoves₁ hlaid₁
        refine (ih hstands₁ hexec).after_moves ?_ hmoves₁
        exact Image.Reaches.trans ⟨w, hruns₁, Eq.refl w⟩ fun t ht =>
          .of_branch hjumpLine hcondAddress (.refl ht.symm)
      | continued env₁ =>
        obtain ⟨w, hruns₁, hlaid₁, hmoves₁⟩ := hgoes id pc rfl hcondAddress
        have hlaid₁ := hlaid₁.of_symbols hrest.symbols.symm
        have hstands₁ := (hstands.moves hmoves hlaid).moves hmoves₁ hlaid₁
        exact (ih hstands₁ hexec).after_moves ⟨w, hruns₁, rfl⟩ hmoves₁
      | broke env₁ =>
        cases hexec
        refine (hgoes id _ rfl hexitAddress).trans fun t ht => ?_
        obtain ⟨hlaid₁, hmoves₁⟩ := ht
        exact .of_label hexitLine (.refl ⟨hlaid₁.of_symbols hrest.symbols.symm, hmoves₁⟩)
      | returned value =>
        cases hexec
        exact hgoes

/-! ## All statements -/

theorem simulates_leave {exit : LoopExit} {label : Nat → Label} {f : Frame} {fs : List Frame}
    {σ τ : Session} {code : Code} {s : State} {pc id pc' : Nat} {Q : State → Prop}
    (hcode : (Lower.leave exit label).run σ = (.ok code, τ)) (hf : σ.frames = f :: fs)
    (hhosts : A.image.Hosts pc code) (hid : f.loops.head? = some id)
    (haddress : A.image.code.address? (label id) = some pc') (hQ : Q s) :
    A.image.Reaches pc s pc' Q := by
  obtain ⟨f', fs', id', hf', hid', -, rfl⟩ := Lower.leave_ok hcode
  cases hf.symm.trans hf'
  cases hid.symm.trans hid'
  exact .of_branch (Image.at_cons.mp hhosts.stands).1 haddress (.refl hQ)

theorem simulates {stmt : Stmt} (hinner : stmt.Inner)
    (hcalls : stmt.containsCalls = true → A.calls = true) : A.Simulates fuel stmt := by
  induction stmt using Stmt.induct with
  | declare ty name => exact hinner.elim
  | init ty name value => exact hinner.elim
  | store pointer value => exact hinner.elim
  | assign name value =>
    intro σ τ code f fs env outcome s pc hexec hcode hf hafter hhosts hstands
    obtain ⟨v, hv, hmap⟩ := Option.bind_eq_some_iff.mp hexec
    obtain ⟨env', henv, rfl⟩ := Option.map_eq_some_iff.mp hmap
    exact hstands.reaches_assign hinner hv henv hcode hf hafter hhosts.stands hcalls
  | ret value =>
    intro σ τ code f fs env outcome s pc hexec hcode hf hafter hhosts hstands
    exact hstands.goes_ret hinner hexec hcode hf hafter hhosts.stands hcalls
  | call callee args =>
    intro σ τ code f fs env outcome s pc hexec hcode hf hafter hhosts hstands
    simp only [Stmt.exec] at hexec
    split at hexec
    case isTrue => cases hexec
    case isFalse hne =>
      obtain ⟨values, hvalues, hmap⟩ := Option.bind_eq_some_iff.mp hexec
      obtain ⟨result, hresult, rfl⟩ := Option.map_eq_some_iff.mp hmap
      exact hstands.reaches_call hinner hvalues hresult hne hcode hf hafter hhosts.stands (hcalls rfl)
  | ifElse cond thenBlock elseBlock ihthen ihelse =>
    obtain ⟨hplain, hthen, helse⟩ := hinner
    simp only [Stmt.containsCalls, Bool.or_eq_true] at hcalls
    refine simulates_ifElse hplain hthen (fun h => hcalls (Or.inl (Or.inl h)))
      (simulatesBlock_of hthen fun stmt hmem => ?_) (simulatesBlock_of helse fun stmt hmem => ?_)
    · refine ihthen stmt hmem (Stmt.allInner_iff.mp hthen stmt hmem) fun h => ?_
      exact hcalls (Or.inl (Or.inr (Stmt.blockContainsCalls_iff.mpr ⟨stmt, hmem, h⟩)))
    · refine ihelse stmt hmem (Stmt.allInner_iff.mp helse stmt hmem) fun h => ?_
      exact hcalls (Or.inr (Stmt.blockContainsCalls_iff.mpr ⟨stmt, hmem, h⟩))
  | loop cond body ih =>
    obtain ⟨hplain, hbody⟩ := hinner
    simp only [Stmt.containsCalls, Bool.or_eq_true] at hcalls
    refine simulates_loop hplain (fun h => hcalls (Or.inl h))
      (simulatesBlock_of hbody fun stmt hmem => ?_)
    refine ih stmt hmem (Stmt.allInner_iff.mp hbody stmt hmem) fun h => ?_
    exact hcalls (Or.inr (Stmt.blockContainsCalls_iff.mpr ⟨stmt, hmem, h⟩))
  | breakLoop =>
    intro σ τ code f fs env outcome s pc hexec hcode hf hafter hhosts hstands
    cases hexec
    exact fun id pc' hid haddress =>
      simulates_leave hcode hf hhosts hid haddress ⟨hstands.laid, .refl s⟩
  | continueLoop =>
    intro σ τ code f fs env outcome s pc hexec hcode hf hafter hhosts hstands
    cases hexec
    exact fun id pc' hid haddress =>
      simulates_leave hcode hf hhosts hid haddress ⟨hstands.laid, .refl s⟩

end Activation

/-! ## The top level of a body -/

namespace Frame

structure Extends (f g : Frame) : Prop where
  settled : f.Settled → g.Settled
  loops : g.loops = f.loops
  highWater : f.highWater ≤ g.highWater

theorem Rests.extends {f g : Frame} (h : Rests f g) : Extends f g :=
  ⟨fun hf => hf.of_rests h, h.loops, h.highWater⟩

theorem Extends.trans {f g h : Frame} (hfg : Extends f g) (hgh : Extends g h) : Extends f h :=
  ⟨fun hf => hgh.settled (hfg.settled hf), hgh.loops.trans hfg.loops,
    Nat.le_trans hfg.highWater hgh.highWater⟩

theorem addVariable_extends {f g : Frame} {ty : Ty} {name : String} {slot : Slot}
    (h : (addVariable ty name).run f = (.ok slot, g)) : Extends f g := by
  refine ⟨fun hf => (hf.addVariable h).1, ?_, (addVariable_peaks h).highWater⟩
  obtain ⟨-, -, -, rfl⟩ := addVariable_ok h
  rfl

end Frame

namespace Stmt

variable {signature : Signature} {σ τ : Session} {code : Code}

theorem Outer.cases {stmt : Stmt} (h : stmt.Outer) :
    (∃ ty name, stmt = .declare ty name) ∨
      (∃ ty name value, stmt = .init ty name value ∧ value.Plain) ∨ stmt.Inner := by
  cases stmt with
  | declare ty name => exact Or.inl ⟨ty, name, rfl⟩
  | init ty name value => exact Or.inr (Or.inl ⟨ty, name, value, rfl, h⟩)
  | _ => exact Or.inr (Or.inr h)

theorem lower_extends {stmt : Stmt} (houter : stmt.Outer)
    (h : (stmt.lower signature).run σ = (.ok code, τ)) : Advances Frame.Extends σ τ := by
  rcases houter.cases with ⟨ty, name, rfl⟩ | ⟨ty, name, value, rfl, hplain⟩ | hinner
  · obtain ⟨-, slot, hslot⟩ := declare_ok h
    exact (onFrame_ok hslot).1.mono Frame.addVariable_extends
  · obtain ⟨slot, σ₁, hslot, hvalue⟩ := Lower.init_ok h
    exact (onFrame_ok hslot).1.comp (Expr.lower_rests hplain.arrayFree hvalue) fun hrun hrest =>
      (Frame.addVariable_extends hrun).trans hrest.extends
  · exact (lower_rests hinner h).mono Frame.Rests.extends

theorem lowerBlock_extends {stmts : List Stmt} (houter : ∀ stmt ∈ stmts, stmt.Outer)
    (h : (lowerBlock signature stmts).run σ = (.ok code, τ)) : Advances Frame.Extends σ τ := by
  induction stmts generalizing σ code with
  | nil =>
    cases h
    exact (Advances.refl _).mono Frame.Rests.extends
  | cons stmt stmts ih =>
    obtain ⟨stmtCode, restCode, σ₁, hstmt, hrest, -⟩ := block_cons_ok h
    exact (lower_extends (houter stmt List.mem_cons_self) hstmt).comp
      (ih (fun other hother => houter other (List.mem_cons_of_mem _ hother)) hrest)
      Frame.Extends.trans

end Stmt

namespace Activation

variable {A : Activation} {fuel : Nat} {f g : Frame} {fs : List Frame} {env : Env} {outcome : Outcome}
variable {σ τ : Session} {code : Code} {s : State} {pc next : Nat}

theorem Stands.of_extends {env' : Env} {t : State} (h : A.Stands f env s) (hfg : f.Extends g)
    (hmoves : A.Moves s t) (hlaid : env'.Laid g t) (hafter : A.setting.After τ)
    (hg : τ.frames = g :: fs) : A.Stands g env' t where
  settled := hfg.settled h.settled
  laid := hlaid
  position := Nat.le_trans (hfg.settled h.settled).valid.highWater (hafter.peak hg)
  ready := h.ready_moves hmoves

theorem Goes.of_no_loops {f' : Frame} (h : A.Goes f' g s pc next outcome) (hf : f.loops = []) :
    A.Goes f g s pc next outcome := by
  cases outcome with
  | broke env =>
    intro id pc' hid
    rw [hf] at hid
    cases hid
  | continued env =>
    intro id pc' hid
    rw [hf] at hid
    cases hid
  | next env => exact h
  | returned value => exact h

theorem Stands.reaches_init (h : A.Stands f env s) {ty : Ty} {name : String} {value : Expr}
    (hplain : value.Plain) (hexec : (Stmt.init ty name value).exec A.setting.ctx fuel env = some outcome)
    (hcode : (Lower.init ty name value).run σ = (.ok code, τ)) (hf : σ.frames = f :: fs)
    (hg : τ.frames = g :: fs) (hafter : A.setting.After τ) (hat : A.image.At pc code)
    (hcalls : value.containsCalls = true → A.calls = true) :
    A.Goes f g s pc (pc + code.length) outcome := by
  obtain ⟨slot, σ₁, hslot, hvalueCode⟩ := Lower.init_ok hcode
  obtain ⟨f₁, hf₁, hrun⟩ := (onFrame_ok hslot).1.frames hf
  obtain ⟨g', hg', hrest⟩ := (Expr.lower_rests hplain.arrayFree hvalueCode).frames hf₁
  cases hg.symm.trans hg'
  obtain ⟨hsettled, rfl, hsymbols, -⟩ := h.settled.addVariable hrun
  have hlookup : f₁.symbols.lookup name = some slot := by
    rw [hsymbols, List.lookup_cons, beq_self_eq_true]
  have hstands : A.Stands f₁ (env.declare slot.ty name) s :=
    h.of_extends (Frame.addVariable_extends hrun) (.refl s) (h.laid.declare hsymbols)
      (hafter.of_lower hvalueCode) hf₁
  obtain ⟨v, hv, hmap⟩ := Option.bind_eq_some_iff.mp hexec
  obtain ⟨env', henv, rfl⟩ := Option.map_eq_some_iff.mp hmap
  obtain ⟨ty, value', hvar, rfl⟩ := Env.assign_eq_some henv
  obtain ⟨slot', hlookup', rfl, -⟩ := hstands.laid _ _ _ hvar
  cases hlookup.symm.trans hlookup'
  obtain ⟨hfits, hadmits⟩ := hsettled.admits hlookup value
  refine (Image.reaches_of_ensures hat (hstands.ensures_lower hplain hv hvalueCode hf₁ hafter hfits
    hadmits hcalls)).mono fun t ht => ⟨?_, ?_⟩
  · refine Env.Laid.of_symbols ?_ hrest.symbols
    refine hstands.laid.define hsettled hstands.position_lt hlookup (fun hfp => ?_) ht.read ht.only
    exact hfp.elim nofun (Frame.not_clobbers_framePointer _ _)
  · have honly : ChangesOnly (f₁.Clobbers value.containsCalls)
        (Scratch (s.regs .framePointer) 0 A.setting.bound) s t :=
      ht.only.mono (fun _ hreg => hreg.resolve_left nofun) fun a ha =>
        ha.elim (hstands.scratch hlookup) fun ha => ha.mono (Nat.zero_le _) (Nat.le_refl _)
    exact Moves.of_only hcalls honly

theorem goes_outer {stmt : Stmt} (houter : stmt.Outer)
    (hcalls : stmt.containsCalls = true → A.calls = true)
    (hexec : stmt.exec A.setting.ctx fuel env = some outcome)
    (hcode : (stmt.lower A.signature).run σ = (.ok code, τ)) (hf : σ.frames = f :: fs)
    (hg : τ.frames = g :: fs) (hafter : A.setting.After τ) (hhosts : A.image.Hosts pc code)
    (hstands : A.Stands f env s) : A.Goes f g s pc (pc + code.length) outcome := by
  rcases houter.cases with ⟨ty, name, rfl⟩ | ⟨ty, name, value, rfl, hplain⟩ | hinner
  · obtain ⟨rfl, slot, hslot⟩ := Stmt.declare_ok hcode
    obtain ⟨g', hg', hrun⟩ := (onFrame_ok hslot).1.frames hf
    cases hg.symm.trans hg'
    obtain ⟨-, rfl, hsymbols, -⟩ := hstands.settled.addVariable hrun
    cases hexec
    exact .refl ⟨hstands.laid.declare hsymbols, .refl s⟩
  · exact hstands.reaches_init hplain hexec hcode hf hg hafter hhosts.stands hcalls
  · obtain ⟨g', hg', hrest⟩ := (Stmt.lower_rests hinner hcode).frames hf
    cases hg.symm.trans hg'
    exact (simulates hinner hcalls hexec hcode hf hafter hhosts hstands).of_symbols rfl rfl
      hrest.symbols.symm

/-- The code of a whole body. -/
theorem goes_body {stmts : List Stmt} (houter : ∀ stmt ∈ stmts, stmt.Outer)
    (hcalls : ∀ stmt ∈ stmts, stmt.containsCalls = true → A.calls = true)
    (hexec : Stmt.execBlock A.setting.ctx fuel stmts env = some outcome)
    (hcode : (Stmt.lowerBlock A.signature stmts).run σ = (.ok code, τ)) (hf : σ.frames = f :: fs)
    (hg : τ.frames = g :: fs) (hafter : A.setting.After τ) (hhosts : A.image.Hosts pc code)
    (hstands : A.Stands f env s) (hloops : f.loops = []) :
    A.Goes f g s pc (pc + code.length) outcome := by
  induction stmts generalizing σ code f env s pc with
  | nil =>
    cases hcode
    cases hexec
    cases hf.symm.trans hg
    exact .refl ⟨hstands.laid, .refl s⟩
  | cons stmt stmts ih =>
    obtain ⟨stmtCode, restCode, σ₁, hstmtCode, hrestCode, rfl⟩ := Stmt.block_cons_ok hcode
    obtain ⟨hhosts₁, hhosts₂⟩ := hhosts.append
    have hstmt := houter stmt List.mem_cons_self
    have hrest : ∀ stmt ∈ stmts, stmt.Outer := fun other hother =>
      houter other (List.mem_cons_of_mem _ hother)
    obtain ⟨f₁, hf₁, hextends⟩ := (Stmt.lower_extends hstmt hstmtCode).frames hf
    have hafter₁ := hafter.of_peaks (Stmt.lowerBlock_peaks hrestCode)
    rw [Stmt.execBlock] at hexec
    obtain ⟨first, hfirst, hthen⟩ := Option.bind_eq_some_iff.mp hexec
    have hgoes := goes_outer hstmt (hcalls stmt List.mem_cons_self) hfirst hstmtCode hf hf₁ hafter₁
      hhosts₁ hstands
    rw [List.length_append, ← Nat.add_assoc]
    cases first with
    | next env₁ =>
      obtain ⟨u, hruns, hlaid, hmoves⟩ := hgoes
      have hstands₁ := hstands.of_extends hextends hmoves hlaid hafter₁ hf₁
      have hgoes₁ := ih hrest (fun other hother => hcalls other (List.mem_cons_of_mem _ hother)) hthen
        hrestCode hf₁ hhosts₂ hstands₁ (hextends.loops.trans hloops)
      exact (hgoes₁.of_no_loops hloops).after_moves ⟨u, hruns, rfl⟩ hmoves
    | _ =>
      cases hthen
      exact hgoes

end Activation

end ArmBackend
