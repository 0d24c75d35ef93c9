import ArmBackend.Proofs.Expr.Accepted
import ArmBackend.Proofs.Stmt.Release

/-!
# What statements keep of a frame

A statement gives back every temporary. The variables from before it stay, and the names that it brings
into scope stand for live variables.
-/

namespace ArmBackend

open Session (onFrame Advances onFrame_ok)

namespace Frame

/-- `g` has the temporaries and the variables of `f`, and its new names stand for variables. -/
structure Retains (f g : Frame) : Prop where
  temporaries : g.temporaries = f.temporaries
  rests : f.temporaries ≠ [] → Rests f g
  valid : Valid f → Valid g
  locals : Valid f → f.locals <:+ g.locals
  names : Valid f → ∃ news, g.symbols = news ++ f.symbols ∧ ∀ entry ∈ news, entry.2 ∈ g.locals

variable {f g h : Frame}

theorem Grows.retains (hfg : Grows f g) : Retains f g :=
  ⟨hfg.temporaries, hfg.rests, hfg.valid, fun _ => hfg.locals, fun _ => ⟨[], hfg.symbols, nofun⟩⟩

theorem Retains.trans (hfg : Retains f g) (hgh : Retains g h) : Retains f h where
  temporaries := hgh.temporaries.trans hfg.temporaries
  rests hne := (hfg.rests hne).trans (hgh.rests (hfg.temporaries ▸ hne))
  valid hf := hgh.valid (hfg.valid hf)
  locals hf := (hfg.locals hf).trans (hgh.locals (hfg.valid hf))
  names hf := by
    obtain ⟨news, hnews, hlive⟩ := hfg.names hf
    obtain ⟨news', hnews', hlive'⟩ := hgh.names (hfg.valid hf)
    refine ⟨news' ++ news, by rw [hnews', hnews, List.append_assoc], fun entry hentry => ?_⟩
    rcases List.mem_append.mp hentry with hentry | hentry
    · exact hlive' entry hentry
    · exact (hgh.locals (hfg.valid hf)).subset (hlive entry hentry)

theorem Retains.loop {id : Nat} (hfg : Retains (f.pushLoop id) g) : Retains f g.popLoop where
  temporaries := hfg.temporaries
  rests hne := passage_rests.loop (hfg.rests hne)
  valid hf := (hfg.valid (hf.pushLoop id)).popLoop
  locals hf := hfg.locals (hf.pushLoop id)
  names hf := hfg.names (hf.pushLoop id)

theorem passage_retains : Passage Retains where
  of_rests h := h.grows.retains
  trans := Retains.trans
  rests := Retains.rests
  loop := Retains.loop

theorem addVariable_retains {ty : Ty} {name : String} {slot : Slot}
    (hrun : (addVariable ty name).run f = (.ok slot, g)) : Retains f g := by
  have hvalid : f.Valid → g.Valid := fun hf => hf.addVariable hrun
  obtain ⟨hempty, -, -, rfl⟩ := addVariable_ok hrun
  exact ⟨rfl, fun hne => absurd hempty hne, hvalid, fun _ => List.suffix_cons _ _,
    fun _ => ⟨[(name, slot)], rfl, List.forall_mem_singleton.mpr List.mem_cons_self⟩⟩

theorem Retains.lookup_live (hfg : Retains f g) (hf : f.Valid) {name : String} {slot : Slot}
    (hlookup : f.symbols.lookup name = some slot) (hlive : slot ∈ f.locals) :
    ∃ slot', g.symbols.lookup name = some slot' ∧ slot' ∈ g.locals := by
  obtain ⟨news, hnews, hnewsLive⟩ := hfg.names hf
  rw [hnews, List.lookup_append]
  cases hnew : news.lookup name with
  | some slot' =>
    obtain ⟨before, after, rfl, -⟩ := List.lookup_eq_some_iff.mp hnew
    exact ⟨slot', rfl, hnewsLive _ (List.mem_append_right _ List.mem_cons_self)⟩
  | none => exact ⟨slot, by simpa using hlookup, (hfg.locals hf).subset hlive⟩

end Frame

open ArmBackend.Frame (Retains Follows)

variable {σ τ : Session} {code : Code} {signature : Signature}

namespace Lower

theorem store_follows {pointer expr : Expr} (h : (store pointer expr).run σ = (.ok code, τ)) :
    Advances (fun f g => Follows f g ∧ g.temporaries = f.temporaries) σ τ := by
  obtain ⟨pointee, pointerSlot, pointerCode, valueSlot, valueCode, -, -, σ₁, σ₂, σ₃, σ₄, σ₅, -, hpointer,
    hpointerCode, hvalue, hvalueCode, -, -, hrelease, hrelease', -⟩ := store_ok h
  have hgrows₁ := ((onFrame_ok hpointer).1.mono Frame.reserveVariable_grows).comp
    (Expr.lower_grows hpointerCode) Frame.Grows.trans
  have hgrows₂ := ((onFrame_ok hvalue).1.mono Frame.reserveVariable_grows).comp
    (Expr.lower_grows hvalueCode) Frame.Grows.trans
  have hrun : ∀ {f g : Frame}, Frame.releaseVariable.run f = (.ok (), g) →
      Follows f g ∧ g.temporaries = f.temporaries := by
    intro f g hrun
    refine ⟨Follows.releaseVariable hrun, ?_⟩
    obtain ⟨-, _, _, _, _, -, -, rfl⟩ := Frame.releaseVariable_ok hrun
    rfl
  have hreleases := ((onFrame_ok hrelease).1.mono hrun).comp ((onFrame_ok hrelease').1.mono hrun)
    (T := fun f g => Follows f g ∧ g.temporaries = f.temporaries)
    fun h h' => ⟨Follows.trans h.1 h'.1, h'.2.trans h.2⟩
  exact (hgrows₁.comp hgrows₂ Frame.Grows.trans).comp hreleases fun hgrows h =>
    ⟨Follows.trans ⟨hgrows.valid, hgrows.symbols⟩ h.1, h.2.trans hgrows.temporaries⟩

theorem store_retains {pointer expr : Expr} (h : (store pointer expr).run σ = (.ok code, τ)) :
    Advances Retains σ τ := by
  have hpeaks := store_peaks h
  refine { hpeaks with frames := fun {f fs} hf => ?_ }
  obtain ⟨g, hg, hpeak⟩ := hpeaks.frames hf
  obtain ⟨g', hg', hfollows, htemporaries⟩ := (store_follows h).frames hf
  cases hg.symm.trans hg'
  exact ⟨g, hg, htemporaries, hpeak.rests, hfollows.valid,
    fun hvalid => store_suffix hvalid hf h hg, fun _ => ⟨[], hfollows.symbols, nofun⟩⟩

theorem coversVariables_retains : CoversVariables Retains :=
  ⟨fun hrun => (Frame.reserveVariable_grows hrun).retains, Frame.addVariable_retains, store_retains⟩

end Lower

theorem Stmt.lower_retains {stmt : Stmt} (h : (stmt.lower signature).run σ = (.ok code, τ)) :
    Advances Retains σ τ :=
  stmt.lower_advances_of Frame.passage_retains (Or.inl Lower.coversVariables_retains) h

theorem Stmt.lowerBlock_retains {stmts : List Stmt}
    (h : (lowerBlock signature stmts).run σ = (.ok code, τ)) : Advances Retains σ τ :=
  lowerBlock_advances_of Frame.passage_retains.toGrowth (fun _ _ => lower_retains) h

end ArmBackend
