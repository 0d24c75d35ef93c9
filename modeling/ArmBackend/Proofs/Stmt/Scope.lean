import ArmBackend.Proofs.Stmt.Retains
import ArmBackend.Proofs.Stmt.Straight

/-!
# Variables stay

Blocks close no scope: every statement leaves the variables from before it where they are, and the names
that it brings into scope stand for slots that were free.
-/

namespace ArmBackend

open Session (onFrame Advances onFrame_ok)

namespace Frame

/-- The frame is valid, and its names stand for live variables. -/
structure Named (f : Frame) : Prop where
  valid : f.Valid
  live : ∀ entry ∈ f.symbols, entry.2 ∈ f.locals

theorem Named.empty : Named {} := ⟨.empty, List.forall_mem_nil _⟩

theorem Named.atLoops {f : Frame} (h : f.Named) (loops : List Nat) : Named { f with loops } :=
  ⟨h.valid.atLoops loops, h.live⟩

/-- `g` has the variables and the names of `f`, and perhaps new ones. -/
structure Deepens (f g : Frame) : Prop where
  highWater : f.highWater ≤ g.highWater
  rests : f.temporaries ≠ [] → Rests f g
  named : Named f → Named g
  locals : Named f → f.locals <:+ g.locals
  position : Named f → f.position ≤ g.position
  names : Named f → ∃ news, g.symbols = news ++ f.symbols ∧
    ∀ entry ∈ news, Spills f g entry.2.offset entry.2.ty

variable {f g h : Frame}

theorem Grows.deepens (hfg : Grows f g) : Deepens f g where
  highWater := hfg.highWater
  rests := hfg.rests
  named hf := ⟨hfg.valid hf.valid, fun entry hentry =>
    hfg.locals.subset (hf.live entry (hfg.symbols ▸ hentry))⟩
  locals _ := hfg.locals
  position _ := hfg.position
  names _ := ⟨[], hfg.symbols, List.forall_mem_nil _⟩

theorem Deepens.trans (hfg : Deepens f g) (hgh : Deepens g h) : Deepens f h where
  highWater := Nat.le_trans hfg.highWater hgh.highWater
  rests hf := (hfg.rests hf).trans (hgh.rests ((hfg.rests hf).temporaries ▸ hf))
  named hf := hgh.named (hfg.named hf)
  locals hf := (hfg.locals hf).trans (hgh.locals (hfg.named hf))
  position hf := Nat.le_trans (hfg.position hf) (hgh.position (hfg.named hf))
  names hf := by
    obtain ⟨news, hnews, hspills⟩ := hfg.names hf
    obtain ⟨news', hnews', hspills'⟩ := hgh.names (hfg.named hf)
    refine ⟨news' ++ news, by rw [hnews', hnews, List.append_assoc], fun entry hentry => ?_⟩
    rcases List.mem_append.mp hentry with hentry | hentry
    · exact (hspills' entry hentry).mono (hfg.position hf) (Nat.le_refl _)
    · exact (hspills entry hentry).mono (Nat.le_refl _) hgh.highWater

theorem Deepens.loop {id : Nat} (hfg : Deepens (f.pushLoop id) g) : Deepens f g.popLoop where
  highWater := hfg.highWater
  rests hf := passage_rests.loop (hfg.rests hf)
  named hf := (hfg.named (hf.atLoops _)).atLoops _
  locals hf := hfg.locals (hf.atLoops _)
  position hf := hfg.position (hf.atLoops _)
  names hf := hfg.names (hf.atLoops _)

theorem passage_deepens : Passage Deepens where
  of_rests h := h.grows.deepens
  trans := Deepens.trans
  rests := Deepens.rests
  loop := Deepens.loop

theorem addVariable_deepens {ty : Ty} {name : String} {slot : Slot}
    (hrun : (addVariable ty name).run f = (.ok slot, g)) : Deepens f g := by
  obtain ⟨hrises, hspills⟩ := addVariable_spills hrun
  have hvalid : f.Valid → g.Valid := fun hf => hf.addVariable hrun
  obtain ⟨hempty, -, -, rfl⟩ := addVariable_ok hrun
  refine ⟨hrises.highWater, fun hne => absurd hempty hne, fun hf => ⟨hvalid hf.valid, ?_⟩,
    fun _ => List.suffix_cons _ _, fun _ => hrises.position, fun _ => ⟨[(name, slot)], rfl, ?_⟩⟩
  · exact List.forall_mem_cons.mpr ⟨List.mem_cons_self,
      fun entry hentry => List.mem_cons_of_mem _ (hf.live entry hentry)⟩
  · exact List.forall_mem_singleton.mpr hspills

theorem Valid.position_le (hf : f.Valid) (hg : g.Valid) (hslots : f.slots <:+ g.slots) :
    f.position ≤ g.position := by
  cases hfs : f.slots with
  | nil =>
    have hstacked := hf.stacked
    rw [hfs] at hstacked
    generalize f.paddings = paddings, f.position = position at hstacked
    cases hstacked
    exact Nat.zero_le _
  | cons slot slots =>
    have hstacked := hf.stacked
    rw [hfs] at hstacked hslots
    have hbound := (hg.stacked.bounds slot (hslots.subset List.mem_cons_self)).2.2
    generalize f.paddings = paddings, f.position = position at hstacked
    cases hstacked
    exact hbound

end Frame

open ArmBackend.Frame (Deepens)

variable {σ τ : Session} {code : Code} {signature : Signature}

namespace Lower

theorem store_deepens {pointer expr : Expr} (h : (store pointer expr).run σ = (.ok code, τ)) :
    Advances Deepens σ τ := by
  have hpeaks := store_peaks h
  refine { hpeaks with frames := fun {f fs} hf => ?_ }
  obtain ⟨g, hg, hpeak⟩ := hpeaks.frames hf
  obtain ⟨g', hg', hfollows, -⟩ := (store_follows h).frames hf
  cases hg.symm.trans hg'
  have hsuffix : f.Named → f.locals <:+ g.locals := fun hnamed => store_suffix hnamed.valid hf h hg
  refine ⟨g, hg, hpeak.highWater, hpeak.rests, fun hnamed => ⟨hfollows.valid hnamed.valid,
    fun entry hentry => ?_⟩, hsuffix, fun hnamed => ?_, fun _ => ⟨[], hfollows.symbols, nofun⟩⟩
  · exact (hsuffix hnamed).subset (hnamed.live entry (hfollows.symbols ▸ hentry))
  · refine hnamed.valid.position_le (hfollows.valid hnamed.valid) ?_
    by_cases hquiet : f.temporaries = []
    · rw [Frame.slots, hquiet]
      exact (hsuffix hnamed).trans (List.suffix_append _ _)
    · have hrest := hpeak.rests hquiet
      have hslots : g.slots = f.slots := by
        rw [Frame.slots, Frame.slots, hrest.temporaries, hrest.locals]
      exact hslots ▸ List.suffix_rfl

theorem coversVariables_deepens : CoversVariables Deepens :=
  ⟨fun hrun => (Frame.reserveVariable_grows hrun).deepens, Frame.addVariable_deepens, store_deepens⟩

end Lower

/-- A statement leaves the variables from before it. -/
theorem Stmt.lower_deepens {stmt : Stmt} (h : (stmt.lower signature).run σ = (.ok code, τ)) :
    Advances Deepens σ τ :=
  stmt.lower_advances_of Frame.passage_deepens (Or.inl Lower.coversVariables_deepens) h

theorem Stmt.lowerBlock_deepens {stmts : List Stmt}
    (h : (lowerBlock signature stmts).run σ = (.ok code, τ)) : Advances Deepens σ τ :=
  lowerBlock_advances_of Frame.passage_deepens.toGrowth (fun _ _ => lower_deepens) h

end ArmBackend
