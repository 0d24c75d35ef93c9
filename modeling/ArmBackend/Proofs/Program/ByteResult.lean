import ArmBackend.Proofs.Expr.Isolated
import ArmBackend.Proofs.Program.Correct

/-!
# One-byte results

A function whose result is one byte wide does not cut what it returns, and a call of it that takes its
result to a register does not either. Only a slot keeps the low byte alone.
-/

namespace ArmBackend

namespace Lower

variable {w : World} {s : State} {ty : Ty} {reg : Register} {code : Code}

/-- A result is whole in a register, whatever its type. -/
theorem ensures_result_register (h : result ty (some (.ofReg ty reg)) = .ok code)
    (hreg : reg ≠ .framePointer) :
    Code.Ensures w code s fun t => t.regs reg = s.regs .result :=
  (Code.ensures_copy h (fun hloc => hreg (Location.reg.inj hloc)) nofun).mono fun _ ht => ht.read

theorem ensures_result_stored {slot : Slot} {back : Code}
    (h : result ty (some slot.reservation) = .ok code)
    (hback : Code.copy slot.reservation (.ofReg slot.ty reg) = .ok back) (hreg : reg ≠ .framePointer) :
    Code.Ensures w (code ++ back) s fun t => t.regs reg = slot.ty.width.low (s.regs .result) := by
  rw [Code.ensures_append]
  refine (Code.ensures_copy h nofun nofun).mono fun t ht => ?_
  refine (Code.ensures_copy hback (fun hloc => hreg (Location.reg.inj hloc)) nofun).mono
    fun u hu => ?_
  have hstored : t.read slot.reservation = slot.ty.width.low (s.regs .result) := ht.read
  have hread : u.regs reg = t.read slot.reservation := hu.read
  exact hread.trans hstored

end Lower

namespace Program

variable {program : Program} {τ : Session} {code : Code} {symbol : Label → Word} {s : State}

/-- A function of a unit that returns a character returns the whole of its value. What a call makes of it
in a register and what it makes of it through a variable agree exactly where the value is a byte. The unit is
plain because a value is known to be returned for plain units only, by the simulation. What a register and a
slot then keep is the same in every state, `Lower.ensures_result_register` and `ensures_result_stored`. -/
theorem byte_result_agrees_iff (hplain : program.Plain)
    (hcompile : program.compile.run (Session.start {}) = (.ok code, τ)) (hlength : code.length < 2 ^ 64)
    {function : Function} (hmem : function ∈ program.functions)
    (hchar : function.signature.returnTy = .char) {fuel depth : Nat} {args : List Word} {v : Word}
    (heval : function.eval
      (context (textAddress τ symbol) (program.call (textAddress τ symbol) fuel depth)) fuel args =
        some (some v))
    (hentered : Function.Entered args ((depth + 1) * (τ.stats.largestFrame + Setting.saveRoom)) s)
    {reg : Register} (hreg : reg ≠ .framePointer) (offset : Nat) :
    ∃ entry t taken stored back direct indirect,
      code.address? (({} : Options).functionLabel function.name) = some entry ∧
      (Image.mk code symbol).Runs ⟨entry, s⟩ ⟨(s.regs .linkRegister).toNat, t⟩ ∧
      Lower.result function.signature.returnTy (some (.ofReg .char reg)) = .ok taken ∧
      Lower.result function.signature.returnTy (some (Slot.reservation ⟨offset, .char⟩)) = .ok stored ∧
      Code.copy (Slot.reservation ⟨offset, .char⟩) (.ofReg .char reg) = .ok back ∧
      taken.exec symbol t = some direct ∧ (stored ++ back).exec symbol t = some indirect ∧
      direct.regs reg = v ∧ indirect.regs reg = Width.byte.low v ∧
      (indirect.regs reg = direct.regs reg ↔ v.toNat < 256) := by
  obtain ⟨entry, hentry, hreaches⟩ := exists_entry hplain hcompile hmem
  have hroom := hentered.room
  rw [Nat.succ_mul, Nat.add_comm] at hroom
  obtain ⟨t, hruns, hanswers⟩ := hreaches (serves hplain hcompile hlength fuel depth) heval
    ⟨hentered.aligned, hroom, hentered.args⟩
  have hv : t.regs .result = v := hanswers.result v rfl
  obtain ⟨taken, htaken⟩ : ∃ taken, Lower.result .char (some (.ofReg .char reg)) = .ok taken := by
    rw [Lower.result, Code.copy]
    split <;> exact ⟨_, rfl⟩
  obtain ⟨stored, hstored⟩ : ∃ stored,
      Lower.result .char (some (Slot.reservation ⟨offset, .char⟩)) = .ok stored := ⟨_, rfl⟩
  obtain ⟨back, hback⟩ : ∃ back,
      Code.copy (Slot.reservation ⟨offset, .char⟩) (.ofReg .char reg) = .ok back := ⟨_, rfl⟩
  obtain ⟨direct, hdirect, hwhole⟩ := Code.exec_of_ensures
    (Lower.ensures_result_register (w := Code.alone symbol) (s := t) htaken hreg)
  obtain ⟨indirect, hindirect, hlow⟩ := Code.exec_of_ensures
    (Lower.ensures_result_stored (w := Code.alone symbol) (s := t) hstored hback hreg)
  rw [hv] at hwhole hlow
  rw [hchar]
  have hlow' : indirect.regs reg = Width.byte.low v := hlow
  refine ⟨entry, t, taken, stored, back, direct, indirect, hentry, hruns, htaken, hstored, hback, hdirect,
    hindirect, hwhole, hlow', ?_⟩
  rw [hwhole, hlow']
  exact Width.low_byte_eq_iff v

def returns300 : Function := ⟨⟨.char, "f", []⟩, [.ret (.literal (.int 300) .int)]⟩

/-- A call of it is 300 in x1, and 44 through a variable. -/
theorem byte_result_agrees_iff_300 :
    let s : State := ⟨fun _ => 4096, fun _ => 0, Flags.compare 0 0⟩
    ∃ code session entry t direct indirect,
      (Program.mk [] [returns300]).compile.run (Session.start {}) = (.ok code, session) ∧
      code.address? (.named "_f") = some entry ∧
      (Image.mk code fun _ => 0).Runs ⟨entry, s⟩ ⟨4096, t⟩ ∧
      Code.exec (fun _ => 0) (Code.move .x1 .result) t = some direct ∧
      Code.exec (fun _ => 0) (Code.storeSlot .result 1 .char ++ Code.loadSlot .x1 1 .char) t =
        some indirect ∧
      direct.regs .x1 = 300 ∧ indirect.regs .x1 = 44 := by
  intro s
  have hplain : (Program.mk [] [returns300]).Plain := by
    constructor
    · simp only [returns300, List.forall_mem_cons, Stmt.Outer, Stmt.Inner]
      exact ⟨⟨⟨.literal (.int 300), rfl⟩, List.forall_mem_nil _⟩, List.forall_mem_nil _⟩
    · simp [returns300, Function.name]
  obtain ⟨code, session, hcompile, htest⟩ := StepM.exists_of_any
    ((Program.mk [] [returns300]).compile.run (Session.start {}))
    (fun code session => code.length < 2 ^ 64 ∧
      1 * (session.stats.largestFrame + Setting.saveRoom) ≤ 4096)
    (by decide +kernel)
  obtain ⟨hlength, hroom⟩ := of_decide_eq_true htest
  obtain ⟨entry, t, taken, stored, back, direct, indirect, hentry, hruns, htaken, hstored, hback, hdirect,
    hindirect, hwhole, hlow, -⟩ := @byte_result_agrees_iff _ session code (fun _ => 0) s hplain hcompile
      hlength returns300 List.mem_cons_self rfl 0 0 [] 300 rfl
      ⟨(by decide : 4096 % 16 = 0), hroom, List.forall_mem_nil _⟩ .x1 (by decide) 1
  cases htaken
  cases hstored
  cases hback
  exact ⟨code, session, entry, t, direct, indirect, hcompile, hentry, hruns, hdirect, hindirect, hwhole, hlow⟩

/-- The entry point compares a call in a register with the same call in a variable. They differ. -/
theorem byte_result_differs :
    let main : Function := ⟨⟨.int, "main", []⟩,
      [.init .char "c" (.call "f" [] .char),
        .ret (.binary (.compare .eq) (.call "f" [] .char) (.var "c" .char) .int)]⟩
    let s : State := ⟨fun _ => 4096, fun _ => 0, Flags.compare 0 0⟩
    ∃ code session entry t,
      (Program.mk [] [returns300, main]).compile.run (Session.start {}) = (.ok code, session) ∧
      code.address? (.named "_main") = some entry ∧
      (Image.mk code fun _ => 0).Runs ⟨entry, s⟩ ⟨4096, t⟩ ∧ t.regs .x0 = 0 := by
  intro main s
  obtain ⟨code, session, hcompile, htest⟩ := StepM.exists_of_any
    ((Program.mk [] [returns300, main]).compile.run (Session.start {}))
    (fun code _ => (code.address? (.named "_main")).any fun entry =>
      ((Image.mk code fun _ => 0).after 30 ⟨entry, s⟩).any fun c => c.pc = 4096 ∧ c.state.regs .x0 = 0)
    (by decide +kernel)
  obtain ⟨entry, hentry, hafter⟩ := Option.any_eq_true _ _ |>.mp htest
  obtain ⟨⟨pc, t⟩, hlast, hresult⟩ := Option.any_eq_true _ _ |>.mp hafter
  obtain ⟨rfl, hzero⟩ := of_decide_eq_true hresult
  exact ⟨code, session, entry, t, hcompile, hentry, Image.runs_of_after hlast, hzero⟩

end Program

end ArmBackend
