import ArmBackend.Proofs.Function.Progress
import ArmBackend.Proofs.Stmt.Outcome
import ArmBackend.Proofs.Stmt.Retains

/-!
# The discipline of frames

Lowering gives back what it takes. Expressions and statements leave the temporaries as they were and the
variables in place, and the checks for temporaries that are left over never fail.
-/

namespace ArmBackend

open CompileError (Sealed)
open Session (onFrame outline Still Advances onFrame_ok)
open ArmBackend.Frame (Retains)

variable {σ τ : Session} {code : Code} {f g : Frame} {fs : List Frame}

theorem Session.check_upholds {α : Type} {E : CompileError → Prop}
    {error : List Reservation → CompileError} {a : α} (hf : σ.frames = f :: fs)
    (hquiet : f.temporaries = []) :
    (do
      let live ← onFrame (Frame.temporaries <$> get)
      unless live.isEmpty do throw (error live)
      return a : CompileM α).Upholds outline E σ := by
  refine .bind (onFrame_upholds (fun hnone => ?_) fun {f' fs'} _ => ⟨rfl, .ok f'.temporaries⟩)
    fun live τ hlive => ?_
  · cases hf.symm.trans hnone
  · obtain ⟨-, f', fs', g, hf', hrun, -⟩ := onFrame_ok hlive
    cases hf.symm.trans hf'
    cases hrun
    simp only [hquiet, List.isEmpty_nil, if_true]
    exact .pure _

namespace Function

variable {function : Function} {signature : Signature}

theorem bindParams_still {params : List Param} {regs : List Register} :
    Still (bindParams params regs) := by
  induction params generalizing regs with
  | nil => exact .pure _
  | cons param params ih =>
    cases regs with
    | nil => exact .throw rfl
    | cons reg regs =>
      exact .bind (Session.addVariable_still param.ty param.name) fun _ =>
        .bind (.lift Code.copy_allows) fun _ => .bind ih fun _ => .pure _

theorem bindParams_retains {params : List Param} {regs : List Register}
    (h : (bindParams params regs).run σ = (.ok code, τ)) : Advances Retains σ τ :=
  bindParams_advances Frame.passage_retains.of_rests Retains.trans Frame.addVariable_retains h

theorem implicitReturn_still : Still (implicitReturn signature) := by
  refine fun σ => .get_bind ?_
  split
  · exact Lower.ret_still σ
  · exact .pure _

theorem lowerBody_upholds (hf : σ.frames = {} :: fs) :
    function.lowerBody.Upholds outline Sealed σ := by
  refine .bind (bindParams_still.tight σ) fun _ σ₁ hparams => .bind (Stmt.lowerBlock_tight _ σ₁)
    fun _ σ₂ hbody => .bind (implicitReturn_still.tight σ₂) fun _ σ₃ hret => ?_
  have hret' := (implicitReturn_rests hret).mono Frame.passage_retains.of_rests
  have hall := ((bindParams_retains hparams).comp (Stmt.lowerBlock_retains hbody) Retains.trans).comp
    hret' Retains.trans
  obtain ⟨f, hf', hretains⟩ := hall.frames hf
  exact Session.check_upholds hf' hretains.temporaries

theorem compile_upholds (function : Function) (σ : Session) :
    function.compile.Upholds outline Sealed σ :=
  .bind (Session.inFrame_upholds (lowerBody_upholds rfl)) fun ⟨_, _⟩ _ _ =>
    .bind (.modify rfl) fun _ _ _ => .get_bind (.pure _)

end Function

namespace Expr

theorem addVariables_retains {locals : List Param}
    (h : (locals.forM fun var => discard (onFrame (Frame.addVariable var.ty var.name))).run σ =
      (.ok (), τ)) : Advances Retains σ τ := by
  induction locals generalizing σ with
  | nil =>
    cases h
    exact (Advances.refl _).mono Frame.passage_retains.of_rests
  | cons var locals ih =>
    obtain ⟨_, σ₁, hvar, hrest⟩ := StepM.run_bind_eq_ok.mp h
    obtain ⟨slot, hslot⟩ := StepM.ok_of_discard hvar
    exact ((onFrame_ok hslot).1.mono Frame.addVariable_retains).comp (ih hrest) Retains.trans

theorem addVariables_still {locals : List Param} :
    Still (locals.forM fun var => discard (onFrame (Frame.addVariable var.ty var.name))) := by
  induction locals with
  | nil => exact .pure _
  | cons var locals ih =>
    exact .bind (fun σ => (Session.addVariable_still var.ty var.name σ).discard) fun _ => ih

theorem lowerAlone_upholds (locals : List Param) (target : Reservation) (expr : Expr) (σ : Session) :
    (expr.lowerAlone locals target).Upholds outline Sealed σ := by
  refine .bind (Session.inFrame_upholds ?_) fun ⟨_, _⟩ _ _ => .pure _
  refine .bind (addVariables_still.tight _) fun _ σ₁ hlocals =>
    .bind ((expr.lower_still target).tight σ₁) fun _ σ₂ hcode => ?_
  have hall := (addVariables_retains hlocals).comp ((lower_grows hcode).mono Frame.Grows.retains)
    Retains.trans
  obtain ⟨f, hf, hretains⟩ := hall.frames rfl
  exact Session.check_upholds hf hretains.temporaries

end Expr

/-! ## What lowering leaves -/

/-- What the lowering of expressions and statements leaves of the innermost frame `f`. -/
structure Session.Disciplined (σ : Session) (f : Frame) (fs : List Frame) : Prop where
  expr : ∀ {expr : Expr} {target : Reservation} {code : Code} {τ : Session},
    (expr.lower target).run σ = (.ok code, τ) →
      ∃ g, τ.frames = g :: fs ∧ g.temporaries = f.temporaries ∧ f.locals <:+ g.locals
  arrayFree : ∀ {expr : Expr} {target : Reservation} {code : Code} {τ : Session},
    expr.arrayFree = true → (expr.lower target).run σ = (.ok code, τ) →
      ∃ g, τ.frames = g :: fs ∧ g.locals = f.locals ∧ g.position = f.position
  stmt : ∀ {signature : Signature} {stmt : Stmt} {code : Code} {τ : Session},
    (stmt.lower signature).run σ = (.ok code, τ) →
      ∃ g, τ.frames = g :: fs ∧ g.temporaries = f.temporaries ∧ f.locals <:+ g.locals
  /-- A name that stood for a live variable still does. -/
  liveNames : ∀ {signature : Signature} {stmt : Stmt} {code : Code} {τ : Session} {name : String}
    {slot : Slot}, (stmt.lower signature).run σ = (.ok code, τ) →
      f.symbols.lookup name = some slot → slot ∈ f.locals →
      ∃ g slot', τ.frames = g :: fs ∧ g.symbols.lookup name = some slot' ∧ slot' ∈ g.locals
  /-- Every name that the statement binds stands for a live variable. -/
  newNames : ∀ {signature : Signature} {stmt : Stmt} {code : Code} {τ : Session},
    (stmt.lower signature).run σ = (.ok code, τ) →
      ∃ g news, τ.frames = g :: fs ∧ g.symbols = news ++ f.symbols ∧ ∀ entry ∈ news, entry.2 ∈ g.locals
  /-- Also a statement that fails leaves every loop that it enters. -/
  loops : ∀ (signature : Signature) (stmt : Stmt),
    ∃ g, ((stmt.lower signature).run σ).2.frames = g :: fs ∧ g.loops = f.loops

theorem Session.disciplined (hvalid : f.Valid) (hf : σ.frames = f :: fs) : σ.Disciplined f fs where
  expr h := by
    obtain ⟨g, hg, hgrows⟩ := (Expr.lower_grows h).frames hf
    exact ⟨g, hg, hgrows.temporaries, hgrows.locals⟩
  arrayFree hfree h := by
    obtain ⟨g, hg, hrests⟩ := (Expr.lower_rests hfree h).frames hf
    exact ⟨g, hg, hrests.locals, hrests.position⟩
  stmt h := by
    obtain ⟨g, hg, hretains⟩ := (Stmt.lower_retains h).frames hf
    exact ⟨g, hg, hretains.temporaries, hretains.locals hvalid⟩
  liveNames h hlookup hlive := by
    obtain ⟨g, hg, hretains⟩ := (Stmt.lower_retains h).frames hf
    obtain ⟨slot', hlookup', hlive'⟩ := hretains.lookup_live hvalid hlookup hlive
    exact ⟨g, slot', hg, hlookup', hlive'⟩
  newNames h := by
    obtain ⟨g, hg, hretains⟩ := (Stmt.lower_retains h).frames hf
    obtain ⟨news, hsymbols, hlive⟩ := hretains.names hvalid
    exact ⟨g, news, hg, hsymbols, hlive⟩
  loops signature stmt := Session.frames_of_outline (stmt.lower_tight σ).view hf

/-- Lowering on a reachable frame leaves its temporaries and its variables, and the checks for temporaries
that are left over pass for every function and expression. -/
theorem lowering_disciplined :
    (∀ {σ : Session} {f : Frame} {fs : List Frame}, f.Reachable → σ.frames = f :: fs →
      σ.Disciplined f fs) ∧
    (∀ (σ : Session) (function : Function) (e : CompileError), (function.compile.run σ).1 = .error e →
      ∀ temporaries name, e ≠ .internal (.temporariesAfterFunction temporaries name)) ∧
    ∀ (σ : Session) (locals : List Param) (target : Reservation) (expr : Expr) (e : CompileError),
      ((expr.lowerAlone locals target).run σ).1 = .error e →
        e ≠ .internal .temporariesAfterExpression := by
  refine ⟨fun hreachable => Session.disciplined hreachable.valid, fun σ function e he => ?_,
    fun σ locals target expr e he => ?_⟩
  · rintro temporaries name rfl
    cases (function.compile_upholds σ).allows _ he
  · rintro rfl
    cases (expr.lowerAlone_upholds locals target σ).allows _ he

/-- `int y = x + 2;` and the failing `while (x) { z = x; }` inside the loop 7, where `x` is the first
variable. -/
theorem lowering_disciplined_nested :
    let f := Frame.Op.apply (Frame.Op.apply {} (.addVariable .int "x")) (.pushLoop 7)
    let start : Session := { Session.start {} with frames := [f] }
    let x : Expr := .var "x" .int
    let sum : Stmt := .init .int "y" (.binary (.arith .add) x (.literal (.int 2) .int) .int)
    let failing : Stmt := .loop x [.assign "z" x]
    let signature : Signature := ⟨.int, "main", []⟩
    (∃ code τ g, (sum.lower signature).run start = (.ok code, τ) ∧ τ.frames = [g] ∧
      g.temporaries = [] ∧ f.locals <:+ g.locals) ∧
    (∃ e τ g, (failing.lower signature).run start = (.error e, τ) ∧ τ.frames = [g] ∧ g.loops = [7]) := by
  intro f start x sum failing signature
  have hdisciplined : start.Disciplined f [] :=
    lowering_disciplined.1 (.apply (.pushLoop 7) (.apply (.addVariable .int "x") .empty)) rfl
  obtain ⟨code, τ, hrun, -⟩ :=
    StepM.exists_of_any ((sum.lower signature).run start) (fun _ _ => true) (by decide +kernel)
  obtain ⟨g, hg, htemporaries, hlocals⟩ := hdisciplined.stmt hrun
  obtain ⟨g', hg', hloops⟩ := hdisciplined.loops signature failing
  have hfails : ((failing.lower signature).run start).1 = .error (.undefinedVariable "z") := by
    decide +kernel
  exact ⟨⟨code, τ, g, hrun, hg, htemporaries, hlocals⟩, _, _, g', Prod.ext hfails rfl, hg', hloops⟩

end ArmBackend
