import ArmBackend.Proofs.Function.Record
import ArmBackend.Proofs.Function.Woven

/-!
# What a function preserves

A function returns with the stack pointer, the frame pointer, the link register and the callee-saved
registers as it was entered with them, on every path through its text, provided that what it calls does
and that nothing writes to the frame record.
-/

namespace ArmBackend

open Code (Woven Maintains)
open ArmBackend.Frame (Spills)

variable {calls : Prop} {σ τ : Session} {g : Frame} {code : Code}

namespace Function

/-- The text of a function behind its symbol, and what its parts do from the state `s` on. The body
includes the label of the return. -/
structure Stands (image : Image) (layout : FrameLayout) (calls : Prop) (writes : Int → Ty → Prop)
    (start : Nat) (body : Code) (s : State) : Prop where
  text : image.At start (body ++ (layout.close ++ Code.ofInstrs [.ret]))
  woven : Woven calls writes body
  clear : Clear s.Record calls writes (layout.opened s)
  close : ∀ u, Steady s.Record calls 0 (layout.opened s) u →
    Code.Ensures (.abi image.symbol s.Record) layout.close u (Preserves s)
  /-- Branches stay in the body. -/
  local_ : ∀ label i, label.Local → image.code.address? label = some i →
    start ≤ i ∧ i < start + body.length

def HoldsRecord (layout : FrameLayout) (s t : State) : Prop :=
  ∀ a, s.Record a → t.mem a = (layout.opened s).mem a

/-- How far a function has come that was entered in state `s`. -/
inductive Stage (image : Image) (layout : FrameLayout) (calls : Prop) (writes : Int → Ty → Prop)
    (start : Nat) (body : Code) (s : State) : Config → Prop
  | opening {c : Config} {line : Line} {piece : Code} (hat : image.At c.pc (line :: piece))
      (hpc : c.pc + (line :: piece).length = start)
      (hcall : ∀ label, Line.instr (.bl label) ∉ line :: piece)
      (h : Maintains (.abi image.symbol s.Record) (fun _ => True) (line :: piece) c.state
        (Steady s.Record calls 0 (layout.opened s))) : Stage image layout calls writes start body s c
  | inside {c : Config} (hne : c.pc ≠ start + body.length)
      (h : image.Within s.Record (HoldsRecord layout s) calls writes start body (layout.opened s) c) :
      Stage image layout calls writes start body s c
  | closing {c : Config} {piece : Code} (hat : image.At c.pc (piece ++ Code.ofInstrs [.ret]))
      (hcall : ∀ label, Line.instr (.bl label) ∉ piece)
      (h : Maintains (.abi image.symbol s.Record) (fun _ => True) piece c.state (Preserves s)) :
      Stage image layout calls writes start body s c

variable {image : Image} {layout : FrameLayout} {writes : Int → Ty → Prop} {start : Nat} {body : Code}
  {s : State} {c d : Config}

namespace Stage

/-- At the end of the body the epilogue begins. -/
theorem of_within (hstands : Stands image layout calls writes start body s)
    (h : image.Within s.Record (HoldsRecord layout s) calls writes start body (layout.opened s) c) :
    Stage image layout calls writes start body s c := by
  by_cases hend : c.pc = start + body.length
  · obtain ⟨before, piece, rest, hcode, hpc, -, hmaintains⟩ := h
    have hlength := congrArg List.length hcode
    simp only [List.length_append] at hlength
    obtain rfl : piece = [] := List.eq_nil_of_length_eq_zero (by omega)
    exact .closing (hend ▸ (Image.at_append.mp hstands.text).2) layout.bl_not_mem_close
      (hstands.close c.state hmaintains).maintains
  · exact .inside hend h

theorem of_opening (hstands : Stands image layout calls writes start body s) {piece : Code}
    (hat : image.At c.pc piece) (hpc : c.pc + piece.length = start)
    (hcall : ∀ label, Line.instr (.bl label) ∉ piece)
    (h : Maintains (.abi image.symbol s.Record) (fun _ => True) piece c.state
      (Steady s.Record calls 0 (layout.opened s))) : Stage image layout calls writes start body s c := by
  cases piece with
  | nil =>
    obtain ⟨pc, t⟩ := c
    obtain rfl : pc = start := hpc
    exact of_within hstands ⟨[], [], body, rfl, rfl, hstands.woven, h⟩
  | cons line piece => exact .opening hat hpc hcall h

theorem stride (hstands : Stands image layout calls writes start body s)
    (h : Stage image layout calls writes start body s c) (hstride : image.Stride s.Record c d) :
    Stage image layout calls writes start body s d := by
  cases h with
  | @opening line piece hat hpc hcall h =>
    obtain ⟨hline, hnext⟩ := Image.at_cons.mp hat
    obtain ⟨hpc', hmaintains⟩ := hstride.maintains hline h
    refine of_opening hstands (hpc' ▸ hnext) ?_
      (fun label hmem => hcall label (List.mem_cons_of_mem _ hmem)) hmaintains
    rw [hpc', ← hpc, List.length_cons]
    omega
  | inside hne h =>
    have htext := (Image.at_append.mp hstands.text).1
    -- All that the body writes leaves the record alone.
    have hwrites : ∀ {offset ty}, writes offset ty → writes offset ty ∨ False := Or.inl
    rcases h.stride htext hstands.woven hstands.clear hwrites (fun _ => id) hne hstride with
      hwithin | hleft | ⟨_, _, _, _, _, _, _, _, hnone, -⟩
    · exact of_within hstands hwithin
    · obtain ⟨label, hlocal, -, haddress⟩ := hleft.label
      have hinner := hstands.local_ label _ hlocal haddress
      have houter := hleft.outside
      omega
    · exact hnone.elim
  | @closing piece hat hcall h =>
    cases piece with
    | nil =>
      obtain ⟨hstep, -⟩ := hstride.advance (Image.at_cons.mp hat).1 (fun _ => nofun) fun _ => nofun
      cases hstep
    | cons line piece =>
      obtain ⟨hline, hnext⟩ := Image.at_cons.mp hat
      obtain ⟨hpc', hmaintains⟩ := hstride.maintains hline h
      exact .closing (hpc' ▸ hnext) (fun label hmem => hcall label (List.mem_cons_of_mem _ hmem)) hmaintains

theorem mem_body (hstands : Stands image layout calls writes start body s)
    (hne : c.pc ≠ start + body.length)
    (h : image.Within s.Record (HoldsRecord layout s) calls writes start body (layout.opened s) c)
    {line : Line} (hline : image.code[c.pc]? = some line) : line ∈ body := by
  obtain ⟨before, piece, rest, hcode, hpc, -, -⟩ := h
  have htext := (Image.at_append.mp hstands.text).1
  rw [hcode] at htext
  cases hrest : piece ++ rest with
  | nil =>
    rw [hcode, hrest, List.append_nil] at hne
    exact absurd hpc hne
  | cons first others =>
    rw [hrest] at htext
    have hfirst := (Image.at_cons.mp (Image.at_append.mp htext).2).1
    rw [← hpc, hline] at hfirst
    cases hfirst
    rw [hcode, hrest]
    exact List.mem_append_right _ List.mem_cons_self

/-- The one line that returns is at the end, where the registers are given back. -/
theorem preserves_of_ret (hstands : Stands image layout calls writes start body s)
    (h : Stage image layout calls writes start body s c)
    (hret : image.code[c.pc]? = some (.instr .ret)) : Preserves s c.state := by
  cases h with
  | opening hat hpc hcall h =>
    cases hret.symm.trans (Image.at_cons.mp hat).1
    obtain ⟨-, t, ht, -⟩ := h
    cases ht
  | inside hne h => exact absurd rfl (hstands.woven.leavesRecord _ (mem_body hstands hne h hret)).stays
  | @closing piece hat hcall h =>
    cases piece with
    | nil => exact h
    | cons line piece =>
      cases hret.symm.trans (Image.at_cons.mp hat).1
      obtain ⟨-, t, ht, -⟩ := h
      cases ht

theorem aligned_of_call (hstands : Stands image layout calls writes start body s)
    (h : Stage image layout calls writes start body s c) {label : Label}
    (hline : image.code[c.pc]? = some (.instr (.bl label))) :
    calls ∧ c.state.StackAligned ∧ HoldsRecord layout s c.state := by
  cases h with
  | opening hat hpc hcall h =>
    cases hline.symm.trans (Image.at_cons.mp hat).1
    exact absurd List.mem_cons_self (hcall label)
  | inside hne h =>
    have hcalls := (hstands.woven.leavesRecord _ (mem_body hstands hne h hline)).linkRegister
      List.mem_cons_self
    obtain ⟨before, piece, rest, hcode, hpc, hrest, hmaintains⟩ := h
    have htext := (Image.at_append.mp hstands.text).1
    rw [hcode] at htext
    have hat := (Image.at_append.mp htext).2
    rw [← hpc] at hat
    have hfirst : ∃ piece, Maintains (.abi image.symbol s.Record) (HoldsRecord layout s)
        (.instr (.bl label) :: piece) c.state (Steady s.Record calls 0 (layout.opened s)) := by
      cases piece with
      | nil =>
        refine hrest.maintains_of_call hstands.clear image.symbol hmaintains ?_
        cases rest with
        | nil =>
          rw [hcode, List.append_nil, List.append_nil] at hne
          exact absurd hpc hne
        | cons line rest => rw [← hline, (Image.at_cons.mp hat).1, List.head?_cons]
      | cons line piece =>
        cases hline.symm.trans (Image.at_cons.mp hat).1
        exact ⟨piece, hmaintains⟩
    obtain ⟨_, hholds, haligned, -⟩ := hfirst
    exact ⟨hcalls.2, haligned, hholds⟩
  | @closing piece hat hcall h =>
    cases piece with
    | nil => cases hline.symm.trans (Image.at_cons.mp hat).1
    | cons line piece =>
      cases hline.symm.trans (Image.at_cons.mp hat).1
      exact absurd List.mem_cons_self (hcall label)

end Stage

theorem local_text_ne {name : String} {label : Label} (hlocal : label.Local) :
    (({} : Options).functionLabel name).text ≠ label.text := by
  intro htext
  have hplaced : (({} : Options).functionLabel name).Placed := Label.placed_functionLabel rfl name
  cases Label.text_inj hplaced hlocal.placed htext
  exact hlocal

theorem stands_of_compile {function : Function} {bodyCode : Code} {symbol : Label → Word}
    (hbody : Woven (function.containsCalls = true) (Spills {} g) bodyCode)
    (hlayout : layout = FrameLayout.ofHighWater g.highWater function.containsCalls)
    (hcode : code = ({} : Options).functionHeader function.name ++ layout.prologue ++ bodyCode ++
      .label (.returnOf function.name) :: layout.epilogue)
    (hsize : layout.localsSize + 80 ≤ 2 ^ 64) (haligned : s.StackAligned) :
    Stands ⟨code, symbol⟩ layout (function.containsCalls = true) (Spills {} g)
      (3 + layout.prologue.length) (bodyCode ++ [.label (.returnOf function.name)]) s := by
  let front := ({} : Options).functionHeader function.name ++ layout.prologue
  have hfront : front.length = 3 + layout.prologue.length := by
    rw [List.length_append]
    rfl
  have htext : code = front ++ ((bodyCode ++ [.label (.returnOf function.name)]) ++
      (layout.close ++ Code.ofInstrs [.ret])) := by
    rw [hcode, FrameLayout.epilogue_eq, List.append_assoc, List.append_assoc bodyCode]
    rfl
  refine ⟨?_, hbody.append (.label _ .nil), FrameLayout.clear_opened hlayout hsize haligned, fun u hu =>
    FrameLayout.ensures_close_preserves hlayout haligned hu, fun label i hlocal haddress => ?_⟩
  · have hdrop : layout.prologue.length + 3 = front.length := by omega
    simp only [Image.At, htext, Nat.add_comm 3, hdrop, List.drop_left, List.prefix_rfl]
  · obtain ⟨other, hother, hwritten⟩ := Code.label_of_address? haddress
    rw [htext] at hother
    rw [← hfront]
    by_contra hout
    have hsides : i < front.length ∨
        front.length + (bodyCode ++ [Line.label (.returnOf function.name)]).length ≤ i := by omega
    rcases hsides with hbefore | hbehind
    · rw [List.getElem?_append_left hbefore] at hother
      have hmem := Code.mem_labels hother
      rw [Code.labels_append, Options.labels_functionHeader, layout.labels_prologue, List.append_nil,
        List.mem_singleton] at hmem
      exact local_text_ne hlocal (hmem ▸ hwritten)
    · rw [← List.append_assoc, List.getElem?_append_right (by rwa [List.length_append])] at hother
      have hmem := Code.mem_labels hother
      rw [← FrameLayout.epilogue_eq, layout.labels_epilogue] at hmem
      exact List.not_mem_nil hmem

theorem Stage.of_strides (hstands : Stands image layout calls writes start body s) {pc : Nat}
    (hprologue : image.At (pc + 1) layout.prologue) (hstart : pc + 1 + layout.prologue.length = start)
    (hsteady : Code.Ensures (.abi image.symbol s.Record) layout.prologue s
      (Steady s.Record calls 0 (layout.opened s))) {label : Label}
    (hlabel : image.code[pc]? = some (.label label))
    (h : Relation.ReflTransGen (image.Stride s.Record) ⟨pc, s⟩ c) :
    c = ⟨pc, s⟩ ∨ Stage image layout calls writes start body s c := by
  rcases Relation.ReflTransGen.cases_head h with heq | ⟨d, hfirst, hrest⟩
  · exact Or.inl heq.symm
  · obtain ⟨hstep, -⟩ := hfirst.advance hlabel (fun _ => nofun) fun _ => nofun
    cases hstep
    refine Or.inr ?_
    clear h
    induction hrest with
    | refl => exact of_opening hstands hprologue hstart layout.bl_not_mem_prologue hsteady.maintains
    | tail _ hstride ih => exact ih.stride hstands hstride

theorem HoldsRecord.loads {t : State} (hsaves : layout.savesRecord = true) (h : HoldsRecord layout s t) :
    t.load .word (s.regs .stackPointer - 16#64) = s.regs .framePointer ∧
      t.load .word (s.regs .stackPointer - 8#64) = s.regs .linkRegister := by
  have hpointer : s.pushed.regs .stackPointer = s.regs .stackPointer - 16#64 := State.set_regs_self _ _ _
  have hsecond : s.regs .stackPointer - 8#64 = s.regs .stackPointer - 16#64 + 8#64 := by bv_omega
  rw [hsecond, ← hpointer]
  exact State.load_record fun a ha => by rw [h a ha, FrameLayout.opened_mem hsaves]

/-- The layout of the frame that the function gets when it is compiled in the session. -/
def frameLayout (function : Function) (σ : Session) : FrameLayout :=
  let lowered := function.lowerBody.run { σ with frames := {} :: σ.frames }
  .ofHighWater (lowered.2.frames.head?.elim 0 Frame.highWater) function.containsCalls

/-- A function that is entered with an aligned stack returns with the stack pointer, the frame pointer, the
link register and the callee-saved registers as they were, and calls with an aligned stack and the record
of its caller saved. Its body writes neither the frame pointer nor, but for calls, the link register. -/
theorem compile_preserves {function : Function} (hoptions : σ.options = {})
    (hcode : function.compile.run σ = (.ok code, τ)) :
    ∃ body, code = ({} : Options).functionHeader function.name ++ (function.frameLayout σ).prologue ++ body ++
        .label (.returnOf function.name) :: (function.frameLayout σ).epilogue ∧
      (∀ instr, Line.instr instr ∈ body →
        instr.LeavesRecord ((function.frameLayout σ).savesRecord = true)) ∧
      ∀ symbol (s : State), (function.frameLayout σ).localsSize + 80 ≤ 2 ^ 64 → s.StackAligned →
        ∃ entry, code.address? (({} : Options).functionLabel function.name) = some entry ∧
          ∀ c, Relation.ReflTransGen ((Image.mk code symbol).Stride s.Record) ⟨entry, s⟩ c →
            (code[c.pc]? = some (.instr .ret) → Preserves s c.state) ∧
            ∀ label, code[c.pc]? = some (.instr (.bl label)) → c.state.StackAligned ∧
              c.state.load .word (s.regs .stackPointer - 16#64) = s.regs .framePointer ∧
              c.state.load .word (s.regs .stackPointer - 8#64) = s.regs .linkRegister := by
  obtain ⟨bodyCode, frame, layout', σ₁, frames, hbody, hg, hlayout, -, hcode⟩ := compile_ok hcode
  have hpeaks := lowerBody_peaks hbody
  obtain ⟨g', hg', -⟩ := hpeaks.frames rfl
  cases hg.symm.trans hg'
  obtain rfl : function.frameLayout σ = layout' := by
    rw [hlayout, Function.frameLayout, hbody, hg]
    rfl
  have hoptions₁ : σ₁.options = {} := hpeaks.options.trans hoptions
  rw [hoptions₁] at hcode
  have hwoven := lowerBody_woven hbody rfl hg
  have hsaves : function.containsCalls = true → (function.frameLayout σ).savesRecord = true := fun hcalls => by
    rw [hlayout]
    simp only [FrameLayout.ofHighWater, hcalls, Bool.true_or]
  refine ⟨bodyCode, hcode, fun instr hinstr => ?_, fun symbol s hsize haligned => ⟨2, ?_, fun c hc => ?_⟩⟩
  · have hleaves := hwoven.leavesRecord instr hinstr
    exact ⟨hleaves.framePointer, fun hlink => (hleaves.linkRegister hlink).imp_right hsaves, hleaves.stays⟩
  · simp [hcode, Code.address?, Options.functionHeader, List.findIdx?_cons, Line.defines]
  · have hstands : Stands ⟨code, symbol⟩ (function.frameLayout σ) _ _ _ _ s :=
      stands_of_compile hwoven hlayout hcode hsize haligned
    have hsymbol : code[2]? = some (.label (({} : Options).functionLabel function.name)) := by
      rw [hcode]
      rfl
    have hprologue : (Image.mk code symbol).At 3 (function.frameLayout σ).prologue :=
      ⟨bodyCode ++ .label (.returnOf function.name) :: (function.frameLayout σ).epilogue, by
        rw [hcode, List.append_assoc, List.append_assoc]
        rfl⟩
    rcases Stage.of_strides hstands hprologue rfl
      (FrameLayout.ensures_prologue_steady hlayout haligned) hsymbol hc with rfl | hstage
    · have hlabel : ∀ instr, code[2]? ≠ some (.instr instr) := by
        rw [hsymbol]
        rintro instr ⟨⟩
      exact ⟨fun hret => absurd hret (hlabel _), fun _ hcall => absurd hcall (hlabel _)⟩
    · refine ⟨hstage.preserves_of_ret hstands, fun label hcall => ?_⟩
      obtain ⟨hcalls, haligned', hholds⟩ := hstage.aligned_of_call hstands hcall
      exact ⟨haligned', hholds.loads (hsaves hcalls)⟩

/-- `int f(int a) { if (a) { return g(a); } return a; }`. With 0 it reaches its return without a call. -/
theorem compile_preserves_uncalled :
    let function : Function := ⟨⟨.int, "f", [⟨.int, "a"⟩]⟩,
      [.ifElse (.var "a" .int) [.ret (.call "g" [.var "a" .int] .int)] [], .ret (.var "a" .int)]⟩
    let start : Session := { Session.start {} with declared := [⟨.int, "g", [⟨.int, "x"⟩]⟩] }
    let s : State := ⟨fun reg => if reg = .x0 then 0 else 4096, fun _ => 0, Flags.compare 0 0⟩
    ∃ code τ c, function.compile.run start = (.ok code, τ) ∧
      Relation.ReflTransGen ((Image.mk code fun _ => 0).Stride s.Record) ⟨2, s⟩ c ∧
      code[c.pc]? = some (.instr .ret) ∧ Preserves s c.state := by
  intro function start s
  obtain ⟨code, τ, hcode, htest⟩ := StepM.exists_of_any (function.compile.run start)
    (fun code _ => code.address? (.named "_f") = some 2 ∧
      ((Image.mk code fun _ => 0).path 15 ⟨2, s⟩).any fun c => code[c.pc]? = some (.instr .ret))
    (by decide +kernel)
  obtain ⟨haddress, hpath⟩ := of_decide_eq_true htest
  obtain ⟨c, hc, hret⟩ := Option.any_eq_true _ _ |>.mp hpath
  obtain ⟨body, -, -, hrun⟩ := compile_preserves rfl hcode
  obtain ⟨entry, hentry, hreach⟩ := hrun (fun _ => 0) s (by decide +kernel) (by decide)
  cases haddress.symm.trans hentry
  have hstrides := Image.strides_of_path s.Record hc
  exact ⟨code, τ, c, hcode, hstrides, of_decide_eq_true hret, (hreach c hstrides).1 (of_decide_eq_true hret)⟩

end Function

end ArmBackend
