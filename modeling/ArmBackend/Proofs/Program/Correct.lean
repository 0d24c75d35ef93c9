import ArmBackend.Proofs.Function.Correct
import ArmBackend.Proofs.Program.Progress

/-!
# Units are compiled correctly

The functions of a unit call each other in its text. Where a call of a function has a result, the machine
returns from the function's symbol with this result.
-/

namespace ArmBackend

variable {σ τ : Session} {code functionsCode rest : Code} {program : Program}

namespace Program

theorem typed_context (text : String → Word) (call : String → List Word → Option (Option Word)) :
    (context text call).Typed := ⟨nofun, nofun⟩

def textAddress (session : Session) (symbol : Label → Word) (text : String) : Word :=
  symbol (session.data.intern text).1

theorem texts_restrict (symbol : Label → Word) {image : Image} (hsymbol : image.symbol = symbol)
    (htexts : σ.data.texts <+: τ.data.texts) (call : String → List Word → Option (Option Word)) :
    (context (textAddress τ symbol) call).Texts image.linked σ.data := by
  intro text id hid
  have hid' : τ.data.texts.idxOf? text = some id := htexts.findIdx?_eq_some hid
  rw [show (context (textAddress τ symbol) call).text text = textAddress τ symbol text from rfl,
    textAddress, StaticData.intern, hid', ← hsymbol]
  rfl

variable {symbol : Label → Word} {args : List Word} {result : Option Word} {s : State}

/-- Every function of a unit has an entry. From there it returns with its result, if the calls in it
do. -/
theorem exists_entry (hplain : program.Plain)
    (hcompile : program.compile.run (Session.start {}) = (.ok code, τ)) {function : Function}
    (hmem : function ∈ program.functions) :
    ∃ entry, code.address? (({} : Options).functionLabel function.name) = some entry ∧
      ∀ {call fuel room args result s},
        (Image.mk code symbol).linked.Serves (context (textAddress τ symbol) call)
          ({} : Options).functionLabel room →
        function.eval (context (textAddress τ symbol) call) fuel args = some result →
        Function.Entered args (τ.stats.largestFrame + Setting.saveRoom + room) s →
        (Image.mk code symbol).Reaches entry s (s.regs .linkRegister).toNat (Answers result s) := by
  obtain ⟨pc, functionCode, σ, τ₁, hoptions, hfunction, hcounts, hhosts, hstats⟩ :=
    exists_hosts hcompile hmem symbol
  obtain ⟨hsound, hwithin⟩ := hstats hplain.named
  have hlargest := (Function.compile_records (hplain.named function hmem) hfunction hsound).1
  refine ⟨_, Function.address_symbol hoptions hfunction hhosts, fun hserves heval hentered => ?_⟩
  refine Function.reaches_return (typed_context _ _) hserves (hplain.outer function hmem) hoptions
    hfunction hsound (texts_restrict symbol rfl hcounts.texts _) hhosts heval
    ⟨hentered.aligned, Nat.le_trans ?_ hentered.room, hentered.args⟩
  exact Nat.add_le_add_right (Nat.add_le_add_right (hwithin hlargest).2 _) _

/-- Calls in the text of a unit return with their results, however deep they are nested. -/
theorem serves (hplain : program.Plain)
    (hcompile : program.compile.run (Session.start {}) = (.ok code, τ)) (hlength : code.length < 2 ^ 64)
    (fuel depth : Nat) :
    (Image.mk code symbol).linked.Serves
      (context (textAddress τ symbol) (program.call (textAddress τ symbol) fuel depth))
      ({} : Options).functionLabel (depth * (τ.stats.largestFrame + Setting.saveRoom)) := by
  induction depth with
  | zero =>
    intro callee values result s hcall
    cases hcall
  | succ depth ih =>
    intro callee values result s hcall haligned hroom hargs pc hline
    obtain ⟨function, hmem, rfl, heval⟩ := call_succ hcall
    obtain ⟨entry, hentry, hreaches⟩ := exists_entry hplain hcompile hmem
    have hother : ∀ reg, reg ≠ .linkRegister →
        (s.set .linkRegister (.ofNat 64 (pc + 1))).regs reg = s.regs reg := fun _ =>
      State.set_regs_ne _ _
    have hentered : Function.Entered values (τ.stats.largestFrame + Setting.saveRoom +
        depth * (τ.stats.largestFrame + Setting.saveRoom)) (s.set .linkRegister (.ofNat 64 (pc + 1))) := by
      refine ⟨haligned, ?_, fun arg harg => ?_⟩
      · rw [Nat.succ_mul, Nat.add_comm] at hroom
        exact hroom
      · obtain ⟨index, hindex⟩ := Register.mem_argBank.mp (List.of_mem_zip harg).1
        rw [← hargs arg harg, hindex]
        exact hother _ nofun
    have hlt : pc + 1 < 2 ^ 64 := Nat.lt_of_le_of_lt (List.getElem?_eq_some_iff.mp hline).1 hlength
    have hreturns := hreaches ih heval hentered
    rw [State.set_regs_self, BitVec.toNat_ofNat, Nat.mod_eq_of_lt hlt] at hreturns
    refine .of_call hline hentry (hreturns.mono fun t ht => ⟨ht.result, ⟨?_, fun a ha => ?_⟩, ?_⟩)
    · exact ht.returns.pointer.trans (hother _ nofun)
    · exact ht.returns.byte a (by rwa [hother .stackPointer nofun])
    rintro reg (rfl | ⟨index, rfl⟩)
    · exact (ht.kept _ (Or.inl rfl)).trans (hother _ nofun)
    · exact (ht.kept _ (Or.inr ⟨index, rfl⟩)).trans (hother _ nofun)

/-- Where a call of a function of a unit has a result, the machine gets from the function's symbol to the
line after the call, with this result in x0. -/
theorem runs_of_call (hplain : program.Plain)
    (hcompile : program.compile.run (Session.start {}) = (.ok code, τ)) (hlength : code.length < 2 ^ 64)
    {fuel depth : Nat} {name : String}
    (hcall : program.call (textAddress τ symbol) fuel depth name args = some result)
    (hentered : Function.Entered args (depth * (τ.stats.largestFrame + Setting.saveRoom)) s) :
    ∃ entry t, code.address? (({} : Options).functionLabel name) = some entry ∧
      (Image.mk code symbol).Runs ⟨entry, s⟩ ⟨(s.regs .linkRegister).toNat, t⟩ ∧ Answers result s t := by
  cases depth with
  | zero => cases hcall
  | succ depth =>
    obtain ⟨function, hmem, rfl, heval⟩ := call_succ hcall
    obtain ⟨entry, hentry, hreaches⟩ := exists_entry hplain hcompile hmem
    have hroom := hentered.room
    rw [Nat.succ_mul, Nat.add_comm] at hroom
    obtain ⟨t, hruns, hanswers⟩ := hreaches (serves hplain hcompile hlength fuel depth) heval
      ⟨hentered.aligned, hroom, hentered.args⟩
    exact ⟨entry, t, hentry, hruns, hanswers⟩

/-- The entry point counts with a function of the unit until 3 is reached. -/
theorem runs_of_call_main :
    let twice : Function := ⟨⟨.int, "twice", [⟨.int, "n"⟩]⟩,
      [.ret (.binary (.arith .add) (.var "n" .int) (.var "n" .int) .int)]⟩
    let main : Function := ⟨⟨.int, "main", []⟩,
      [.init .int "i" (.literal (.int 0) .int),
        .loop (.binary (.compare .lt) (.var "i" .int) (.literal (.int 3) .int) .int)
          [.assign "i" (.binary (.arith .add) (.call "twice" [.var "i" .int] .int)
            (.literal (.int 1) .int) .int)],
        .ret (.var "i" .int)]⟩
    let s : State := ⟨fun _ => 4096, fun _ => 0, Flags.compare 0 0⟩
    ∃ code session entry t,
      (Program.mk [] [twice, main]).compile.run (Session.start {}) = (.ok code, session) ∧
        code.address? (.named "_main") = some entry ∧
        (Image.mk code fun _ => 0).Runs ⟨entry, s⟩ ⟨4096, t⟩ ∧ t.regs .x0 = 3 := by
  intro twice main s
  have hplain : (Program.mk [] [twice, main]).Plain := by
    have hn : (Expr.var "n" .int).Built := .var "n" .int
    have hi : (Expr.var "i" .int).Built := .var "i" .int
    have hcall : (Expr.call "twice" [.var "i" .int] .int).Built :=
      .call "twice" .int fun arg harg => List.mem_singleton.mp harg ▸ hi
    constructor
    · simp only [twice, main, List.forall_mem_cons, Stmt.Outer, Stmt.Inner, Stmt.AllInner]
      exact ⟨⟨⟨.binary hn hn rfl, rfl⟩, List.forall_mem_nil _⟩, ⟨⟨.literal (.int 0), rfl⟩,
        ⟨⟨.binary hi (.literal (.int 3)) rfl, rfl⟩, ⟨.binary hcall (.literal (.int 1)) rfl, rfl⟩, trivial⟩,
        ⟨hi, rfl⟩, List.forall_mem_nil _⟩, List.forall_mem_nil _⟩
    · simp [twice, main, Function.name]
  have hfacts : (let outcome := (Program.mk [] [twice, main]).compile.run (Session.start {})
      outcome.1.toOption.any fun code => code.length < 2 ^ 64 ∧
        2 * (outcome.2.stats.largestFrame + Setting.saveRoom) ≤ 4096 ∧
        (Program.mk [] [twice, main]).call (textAddress outcome.2 fun _ => 0) 4 2 "main" [] =
          some (some 3)) = true := by decide +kernel
  rcases hcompile : (Program.mk [] [twice, main]).compile.run (Session.start {}) with ⟨_ | code, session⟩
  · rw [hcompile] at hfacts
    cases hfacts
  · rw [hcompile] at hfacts
    obtain ⟨hlength, hroom, hcall⟩ := of_decide_eq_true hfacts
    obtain ⟨entry, t, hentry, hruns, hanswers⟩ :=
      runs_of_call hplain hcompile hlength (s := s) hcall ⟨(by decide : 4096 % 16 = 0), hroom, List.forall_mem_nil _⟩
    exact ⟨code, session, entry, t, rfl, hentry, hruns, hanswers.result _ rfl⟩

end Program

end ArmBackend
