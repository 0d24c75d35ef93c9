import ArmBackend.Proofs.Function.Links
import ArmBackend.Proofs.Function.Preserves
import ArmBackend.Proofs.Stmt.Lifetime
import ArmBackend.Proofs.Stmt.Places

/-!
# Variables up to the return of their function

From a statement behind which it is in scope to the return of the function, a variable changes in the stores of its
own assignments only, in whatever blocks and loops these stand. A run ends where a loop leads back in front of that
statement.
-/

namespace ArmBackend

open Code (Closed)

variable {σ τ : Session} {g : Frame} {fs : List Frame} {code : Code}

/-- Where branches lead that leave a part of a text, behind which one more label stands. -/
theorem Image.Left.bounds {image : Image} {kept : Word → Prop} {calls : Prop} {pc : Nat} {front back after : Code}
    {exit : Label} {q : State} {c : Config} (h : image.Left kept calls (pc + front.length) back q c)
    (hhosts : image.Hosts pc (front ++ (back ++ .label exit :: after)))
    (hclosed : Closed (fun _ => False) (front ++ (back ++ .label exit :: after))) (hafter : after.labels = []) :
    c.pc ≤ pc + front.length + back.length ∧ (Closed (· = exit) back → pc + front.length ≤ c.pc) := by
  obtain ⟨label, -, hbranch, haddress⟩ := h.label
  have hback := (Hosts.append hhosts).2
  constructor
  · have hmem := (hclosed label (by simp [hbranch])).resolve_right id
    obtain ⟨k, hk, hpc⟩ := hhosts.mem_labels hmem haddress
    by_contra hbehind
    have hsplit : front ++ (back ++ .label exit :: after) = (front ++ (back ++ [Line.label exit])) ++ after := by
      simp
    have hle : (front ++ (back ++ [Line.label exit])).length ≤ k := by
      simp only [List.length_append, List.length_singleton]
      omega
    rw [hsplit, List.getElem?_append_right hle] at hk
    exact absurd (Code.mem_labels hk) (hafter ▸ List.not_mem_nil)
  · intro hexits
    have hmem : label ∈ Code.labels (back ++ .label exit :: after) := by
      rcases hexits label hbranch with hlabel | rfl
      · simp [hlabel]
      · simp
    obtain ⟨k, -, hpc⟩ := hback.mem_labels hmem haddress
    omega

namespace Function

variable {function : Function} {stmt : Stmt} {looped : Bool} {rest : List Stmt}

theorem lowerBody_tail (hoccurs : stmt.Occurs function.body looped rest)
    (h : function.lowerBody.run σ = (.ok code, τ)) (hf : σ.frames = {} :: fs) (hg : τ.frames = g :: fs) :
    ∃ back scope, stmt.EndsAt function.signature code back scope fs ∧
      Stmt.Tail function.signature [] g scope looped rest back := by
  obtain ⟨paramCode, bodyCode, returnCode, σ₁, σ₂, hparams, hbody, hret, rfl⟩ := lowerBody_ok h
  obtain ⟨f₁, hf₁, hdeepens₁⟩ := (bindParams_deepens hparams).frames hf
  obtain ⟨f₁', hf₁', hloops₁⟩ := bindParams_still.tight.frames hparams hf
  cases hf₁.symm.trans hf₁'
  obtain ⟨f₂, hf₂, hdeepens₂, hloops₂⟩ := Stmt.lowerBlock_frames hbody hf₁
  obtain ⟨g', hg', hrest⟩ := (implicitReturn_rests hret).frames hf₂
  cases hg.symm.trans hg'
  obtain ⟨back, scope, hends, htail⟩ := hoccurs.lower hbody hf₁ hf₂ (hdeepens₁.named .empty)
  have htail' := htail.append (.of_woven hrest.grows (implicitReturn_woven hret hf₂ hg)) (fun _ => ?_) hrest.loops
  · rw [List.append_nil, hloops₁] at htail'
    exact ⟨_, scope, hends.within paramCode returnCode, htail'⟩
  · rw [← hloops₂]
    exact implicitReturn_closed hret hf₂

/-- From behind a statement up to the return of its function, a variable that is in scope there changes in the
stores of assignments to it only, as long as callees and stores through pointers spare it. A run ends in front of
the statement only if a loop leads back to it. -/
theorem compile_spares (h : function.compile.run σ = (.ok code, τ))
    (hoccurs : stmt.Occurs function.body looped rest) :
    ∃ back scope, stmt.EndsAt function.signature code
        (back ++ .label (.returnOf function.name) :: (function.frameLayout σ).epilogue) scope σ.frames ∧
      ∀ {image : Image} {pc start : Nat} {slot : Slot} {s : State} {c : Config}, image.Hosts pc code →
        start + (back ++ .label (.returnOf function.name) :: (function.frameLayout σ).epilogue).length =
          pc + code.length →
        slot ∈ scope.locals → s.Framed (function.frameLayout σ).localsSize →
        Relation.ReflTransGen (fun c d => (start ≤ c.pc ∧ c.pc < start + back.length) ∧
          image.Stride (slot.reservation.Covers (s.regs .framePointer)) c d) ⟨start, s⟩ c →
        (c.pc ≤ start + back.length ∧ (looped = false → start ≤ c.pc)) ∧
          ∀ d, start ≤ c.pc → c.pc < start + back.length →
            image.Stride (slot.reservation.Covers (s.regs .framePointer)) c d →
            (∀ a, slot.reservation.Covers (s.regs .framePointer) a → d.state.mem a = c.state.mem a) ∨
              back.StoresAt (scope.Assigns (Stmt.blockAssigned rest) slot) (c.pc - start) := by
  have hclosed := compile_closed h
  obtain ⟨bodyCode, frame, layout', σ₁, frames, hbody, hg, hlayout, -, hcode⟩ := compile_ok h
  obtain ⟨g', hg', -⟩ := (lowerBody_peaks hbody).frames rfl
  cases hg.symm.trans hg'
  obtain rfl : function.frameLayout σ = layout' := by
    rw [hlayout, Function.frameLayout, hbody, hg]
    rfl
  obtain ⟨back, scope, hends, htail⟩ := lowerBody_tail hoccurs hbody rfl hg
  have hends' : stmt.EndsAt function.signature code
      (back ++ .label (.returnOf function.name) :: (function.frameLayout σ).epilogue) scope σ.frames :=
    hcode ▸ hends.within _ _
  refine ⟨back, scope, hends', fun {image pc start slot s c} hhosts hstart hslot hs hc => ?_⟩
  have hextent : frame.highWater ≤ (function.frameLayout σ).localsSize := hlayout ▸ FrameLayout.le_localsSize _ _
  have hnamed := htail.named.atLoops frame.loops
  obtain ⟨front, stmtCode, -, -, hsplit, -⟩ := hends'
  obtain rfl : start = pc + (front ++ stmtCode).length := by
    rw [hsplit] at hstart
    simp only [List.length_append] at hstart ⊢
    omega
  rw [hsplit] at hhosts hclosed
  have hat := (Image.at_append.mp (Image.Hosts.append hhosts).2.stands).1
  have hreached := htail.trail.amid_or_left hnamed hslot hat hs hextent hc
  refine ⟨?_, fun d hlow hup hstride => ?_⟩
  · rcases hreached with hin | ⟨q, hleft⟩
    · exact ⟨hin.bounds.2, fun _ => hin.bounds.1⟩
    · have hbounds := hleft.bounds hhosts hclosed (FrameLayout.labels_epilogue _)
      refine ⟨hbounds.1, fun hlooped => hbounds.2 fun label hmem => ?_⟩
      refine (htail.closed hlooped label hmem).imp_right fun hexits => hexits.resolve_right ?_
      rintro ⟨id, hid, -⟩
      cases hid
  · rcases hreached with hin | ⟨q, hleft⟩
    · exact (htail.trail.stride hnamed hslot hat hs hextent hin (by omega) hstride).2
    · have := hleft.outside
      omega

end Function

end ArmBackend
