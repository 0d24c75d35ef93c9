import ArmBackend.Proofs.Function.Preserves
import ArmBackend.Proofs.Stmt.Framed

/-!
# Functions stay in their frames

The text of a function reaches only bytes that its prologue makes room for, and only behind a prologue
that saves the frame record. The addresses that it computes are those of its variables and of its arrays, with
all their bytes. Every immediate in it fits its field.
-/

namespace ArmBackend

open Code (Framed)
open Session (onFrame Yields)

variable {σ τ : Session} {code : Code} {instr : Instr}

/-! ## Prologue and epilogue -/

theorem Code.plain_adjustStack {change : StackChange} {size : Nat}
    (h : Line.instr instr ∈ adjustStack change size) : instr.Plain := by
  have hstack : Register.framePointer ∉ [Register.stackPointer, .stackPointer] := by decide
  have hstaged : Register.framePointer ∉ [Register.stackPointer, .stackPointer, .staging] := by decide
  have hstaging : Register.framePointer ∉ [Register.staging] := by decide
  simp only [adjustStack] at h
  split at h
  case isTrue hsize =>
    cases change <;> obtain rfl := List.mem_singleton.mp (mem_ofInstrs.mp h) <;> exact ⟨hsize, hstack⟩
  case isFalse =>
    split at h
    case isTrue hpages =>
      cases change <;> obtain rfl := List.mem_singleton.mp (mem_ofInstrs.mp h) <;>
        exact ⟨hpages.2, hstack⟩
    case isFalse =>
      rcases List.mem_append.mp h with h | h
      · rcases mem_constant h with ⟨imm, hle, rfl⟩ | ⟨chunk, hle, shift, hshift, rfl⟩
        · exact ⟨hle, hstaging⟩
        · exact ⟨⟨hle, hshift⟩, hstaging⟩
      · cases change <;> obtain rfl := List.mem_singleton.mp (mem_ofInstrs.mp h) <;>
          exact ⟨trivial, hstaged⟩

namespace FrameLayout

variable {layout : FrameLayout}

/-- The instructions that save and restore the frame record. -/
def recordInstrs : List Instr :=
  [.pushPair .framePointer .linkRegister, .mov .framePointer .stackPointer,
    .popPair .framePointer .linkRegister]

theorem mem_prologue (h : Line.instr instr ∈ layout.prologue) :
    instr.Plain ∨ layout.savesRecord = true ∧ instr ∈ recordInstrs := by
  rw [prologue] at h
  rcases List.mem_append.mp h with h | h
  · split at h
    case isTrue hsaves =>
      have hmem := List.mem_append_left [Instr.popPair .framePointer .linkRegister] (Code.mem_ofInstrs.mp h)
      exact Or.inr ⟨hsaves, hmem⟩
    case isFalse => cases h
  · split at h
    case isTrue => exact Or.inl (Code.plain_adjustStack h)
    case isFalse => cases h

theorem mem_epilogue (h : Line.instr instr ∈ layout.epilogue) :
    instr.Plain ∨ layout.savesRecord = true ∧ instr ∈ recordInstrs := by
  rw [epilogue] at h
  rcases List.mem_append.mp h with h | h
  · rcases List.mem_append.mp h with h | h
    · split at h
      case isTrue => exact Or.inl (Code.plain_adjustStack h)
      case isFalse => cases h
    · split at h
      case isTrue hsaves =>
        obtain rfl := List.mem_singleton.mp (Code.mem_ofInstrs.mp h)
        exact Or.inr ⟨hsaves, by decide⟩
      case isFalse => cases h
  · obtain rfl := List.mem_singleton.mp (Code.mem_ofInstrs.mp h)
    exact Or.inl (.of_volatile trivial (List.forall_mem_nil _))

theorem forall_recordInstrs (h : instr ∈ recordInstrs) :
    instr.Encodable ∧ instr.access? = none ∧ ∀ dst imm, instr ≠ .subImm dst .framePointer imm := by
  simp only [recordInstrs, List.mem_cons, List.not_mem_nil, or_false] at h
  rcases h with rfl | rfl | rfl <;> exact ⟨trivial, rfl, nofun⟩

end FrameLayout

/-! ## Functions -/

namespace Function

def arrays (function : Function) : List (Ty × Nat) := Stmt.blockArrays function.body

/-- The slots that the names of the function stand for when it is compiled in the session. -/
def named (function : Function) (σ : Session) : List Slot :=
  let lowered := function.lowerBody.run { σ with frames := {} :: σ.frames }
  lowered.2.frames.head?.elim [] fun frame => frame.symbols.map Prod.snd

variable {arrays : List (Ty × Nat)} {reach : Reach} {function : Function} {signature : Signature}

theorem bindParams_framed {params : List Param} {regs : List Register} (hregs : ∀ reg ∈ regs, reg.Volatile) :
    Yields reach (bindParams params regs) (Framed arrays) := by
  induction params generalizing reach regs with
  | nil => exact .pure .nil
  | cons param params ih =>
    cases regs with
    | nil => exact .throw
    | cons reg regs =>
      obtain ⟨hreg, hregs⟩ := List.forall_mem_cons.mp hregs
      exact .bind (.addVariable param.ty param.name) fun _ _ _ hslot => .check fun _ hcopy =>
        .bind (ih hregs) fun _ _ hle hrest =>
          .pure (.append ((Code.framed_copy hcopy (.register _ hreg) (.slot hslot)).mono hle) hrest)

theorem implicitReturn_framed : Yields reach (implicitReturn signature) (Framed arrays) := by
  refine .skip (.get fun _ => trivial) fun _ session _ => ?_
  split
  · exact Lower.ret_framed (List.nil_subset _)
  · exact .pure .nil

theorem lowerBody_framed : Yields reach function.lowerBody (Framed function.arrays) := by
  have hbind : ∀ {reach}, Yields reach (bindParams function.signature.params Register.argBank)
      (Framed function.arrays) := bindParams_framed fun _ => Register.volatile_of_argBank
  have hreturn : ∀ {reach}, Yields reach (implicitReturn function.signature) (Framed function.arrays) :=
    implicitReturn_framed
  refine .bind hbind fun _ _ h₁ hparams =>
    .bind (Stmt.lowerBlock_framed _ (List.Subset.refl _)) fun _ _ h₂ hcode => .bind hreturn fun _ _ h₃ hret =>
    .skip (.onFrame fun hbounded hrun => ?_) fun _ live h₄ => ?_
  · cases hrun
    exact ⟨hbounded, le_refl _, trivial⟩
  · split
    · exact .pure (.append (.append (hparams.mono (by order)) (hcode.mono (by order))) (hret.mono h₄))
    · exact .throw

theorem mem_code {layout : FrameLayout} {body : Code}
    (hcode : code = σ.options.functionHeader function.name ++ layout.prologue ++ body ++
      .label (.returnOf function.name) :: layout.epilogue) (h : Line.instr instr ∈ code) :
    Line.instr instr ∈ body ∨ instr.Plain ∨ layout.savesRecord = true ∧ instr ∈ FrameLayout.recordInstrs := by
  have hheader : Line.instr instr ∉ σ.options.functionHeader function.name := by
    rw [Options.functionHeader]
    split <;> simp
  rw [hcode] at h
  rcases List.mem_append.mp h with h | h
  · rcases List.mem_append.mp h with h | h
    · rcases List.mem_append.mp h with h | h
      · exact absurd h hheader
      · exact Or.inr (FrameLayout.mem_prologue h)
    · exact Or.inl h
  · rcases List.mem_cons.mp h with h | h
    · cases h
    · exact Or.inr (FrameLayout.mem_epilogue h)

/-- Every access of a function through the frame pointer is to bytes that its prologue makes room for, and so
is every byte of a variable or an array whose address it takes. A function that names the frame pointer saves
the record, and its immediates fit their fields. -/
theorem compile_framed {function : Function} (hcode : function.compile.run σ = (.ok code, τ))
    (hsize : (function.frameLayout σ).localsSize ≤ 2 ^ 32) :
    ∃ body, code = σ.options.functionHeader function.name ++ (function.frameLayout σ).prologue ++ body ++
        .label (.returnOf function.name) :: (function.frameLayout σ).epilogue ∧
      body.Framed function.arrays ⟨(function.frameLayout σ).localsSize, function.named σ⟩ ∧
      (∀ instr, Line.instr instr ∈ code → instr.Encodable) ∧
      (∀ instr, Line.instr instr ∈ code → .framePointer ∈ instr.registers →
        (function.frameLayout σ).savesRecord = true) ∧
      (∀ instr width offset, Line.instr instr ∈ code → instr.access? = some (width, .frame offset) →
        ∃ k : Nat, offset = k ∧ k ≤ 256 ∧ Inside (function.frameLayout σ).localsSize width.bytes k) ∧
      ∀ dst imm, Line.instr (.subImm dst .framePointer imm) ∈ code →
        0 < imm ∧ imm ≤ (function.frameLayout σ).localsSize := by
  obtain ⟨body, frame, layout, σ₁, frames, hbody, hg, hlayout, -, hcode⟩ := compile_ok hcode
  obtain rfl : function.frameLayout σ = layout := by
    rw [hlayout, Function.frameLayout, hbody, hg]
    rfl
  rw [(lowerBody_peaks hbody).options] at hcode
  obtain ⟨_, -, ⟨g, gs, hg', -, rfl⟩, hframed⟩ :=
    lowerBody_framed _ _ _ ⟨{}, _, rfl, List.forall_mem_nil _, rfl⟩ hbody
  cases hg.symm.trans hg'
  have hnamed : function.named σ = frame.symbols.map Prod.snd := by
    rw [named, hbody, hg]
    rfl
  have hle := FrameLayout.le_localsSize frame.highWater function.containsCalls
  rw [← hlayout] at hle
  have hreach : frame.reach ≤ ⟨(function.frameLayout σ).localsSize, function.named σ⟩ :=
    ⟨hle, hnamed ▸ List.Subset.refl _⟩
  have hframed := hframed.mono hreach
  refine ⟨body, hcode, hframed, fun instr h => ?_, fun instr h hnamed => ?_, fun instr width offset h haccess => ?_,
    fun dst imm h => ?_⟩
  · rcases mem_code hcode h with h | h | ⟨-, h⟩
    · exact hframed.encodable instr h
    · exact h.encodable
    · exact (FrameLayout.forall_recordInstrs h).1
  · rcases mem_code hcode h with h | h | ⟨hsaves, -⟩
    · have hpos : 0 < (function.frameLayout σ).localsSize := hframed.size_pos instr h hnamed
      by_contra hsaves
      have := (FrameLayout.bare hlayout (eq_false_of_ne_true hsaves)).localsSize
      omega
    · exact absurd hnamed h.framePointer
    · exact hsaves
  · rcases mem_code hcode h with h | h | ⟨-, h⟩
    · exact hframed.inside_of_access instr h haccess
    · exact (h.not_direct haccess).elim
    · cases (FrameLayout.forall_recordInstrs h).2.1.symm.trans haccess
  · rcases mem_code hcode h with h | h | ⟨-, h⟩
    · have hlt : (function.frameLayout σ).localsSize < 2 ^ 64 := by omega
      exact hframed.inside_of_subImm hlt h
    · exact absurd (List.mem_cons_of_mem _ List.mem_cons_self) h.framePointer
    · exact absurd rfl ((FrameLayout.forall_recordInstrs h).2.2 dst imm)

/-- `int f() { int* p = {0, …, 0}; return 1; }` with 33 elements, of which the first one lies 272 bytes
below the frame pointer. -/
theorem compile_framed_array :
    let array : Expr := .array (List.replicate 33 (.literal (.int 0) .int)) (.ptr .int)
    let function : Function := ⟨⟨.int, "f", []⟩, [.init (.ptr .int) "p" array, .ret (.literal (.int 1) .int)]⟩
    ∃ code τ, function.compile.run (Session.start {}) = (.ok code, τ) ∧
      Line.instr (.subImm .operand .framePointer 272) ∈ code ∧
      272 ≤ (function.frameLayout (Session.start {})).localsSize ∧
      (function.frameLayout (Session.start {})).savesRecord = true ∧
      ∀ instr, Line.instr instr ∈ code → instr.Encodable := by
  intro array function
  obtain ⟨code, τ, hcode, htest⟩ := StepM.exists_of_any (function.compile.run (Session.start {}))
    (fun code _ => Line.instr (.subImm .operand .framePointer 272) ∈ code) (by decide +kernel)
  have hmem := of_decide_eq_true htest
  obtain ⟨body, -, -, hencodable, hsaves, -, hreach⟩ := compile_framed hcode (by decide +kernel)
  have hnamed : Register.framePointer ∈ [Register.operand, .framePointer] := by decide
  exact ⟨code, τ, hcode, hmem, (hreach _ _ hmem).2, hsaves _ hmem hnamed, hencodable⟩

end Function

end ArmBackend
