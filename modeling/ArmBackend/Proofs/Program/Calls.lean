import ArmBackend.Proofs.Function.Calls
import ArmBackend.Proofs.Program.Lines

/-!
# What contains a call

The predicate on syntax and the lowering agree on what calls out, in the code and in its text.
-/

namespace ArmBackend

theorem Program.Compiles.callsOut_readAll {options : Options} {function : Function} {code : Code}
    (h : Compiles options function code) (hunderscore : options.symbolPrefix = "_")
    (hname : Legible function.name) (hcallees : ∀ name ∈ function.callees, Legible name) (indent : Nat) :
    (Mark.readAll (code.render indent)).any Mark.callsOut = function.containsCalls := by
  rw [Code.callsOut_readAll (h.proper hunderscore hname hcallees) fun label hmem =>
    (h.written_of_label hunderscore hname hmem).2]
  obtain ⟨σ, τ, -, hrun⟩ := h
  exact Function.compile_callsOut hrun

/-- Whatever is lowered, for any target and in any session, calls out exactly if it contains a call. So a
function in which anything writes the link register saves the frame record. The arguments of a call that
contain calls are evaluated into temporaries before any argument register is written, and nothing calls out
from there to the branch of the call. A returned value that contains no call is evaluated straight into the
result register, without a line that calls out. The text of a function shows the same, where its own name
and those of its callees are legible, and so does any code that can be told from its text. -/
theorem containsCalls_exact :
    (∀ {expr : Expr} {target : Reservation} {σ : Session} {code : Code} {τ : Session},
      (expr.lower target).run σ = (.ok code, τ) → code.callsOut = expr.containsCalls) ∧
    (∀ {signature : Signature} {stmts : List Stmt} {σ : Session} {code : Code} {τ : Session},
      (Stmt.lowerBlock signature stmts).run σ = (.ok code, τ) →
        code.callsOut = Stmt.blockContainsCalls stmts) ∧
    (∀ {function : Function} {σ : Session} {code : Code} {τ : Session},
      function.compile.run σ = (.ok code, τ) →
        code.callsOut = function.containsCalls ∧
        (σ.options.symbolPrefix = "_" → Legible function.name → (∀ name ∈ function.callees, Legible name) →
          ∀ indent, (Mark.readAll (code.render indent)).any Mark.callsOut = function.containsCalls) ∧
        ∀ instr, Line.instr instr ∈ code → .linkRegister ∈ instr.dests →
          ∃ between, code = σ.options.functionHeader function.name ++
            .instr (.pushPair .framePointer .linkRegister) :: between ++
            Code.ofInstrs [.popPair .framePointer .linkRegister, .ret]) ∧
    (∀ {callee : String} {args : List Expr} {target : Option Reservation} {σ : Session} {code : Code}
      {τ : Session}, (Lower.call callee (Expr.operands args) target).run σ = (.ok code, τ) →
        ∃ regs, argRegisters (Lower.passed callee (Expr.operands args)).length = .ok regs ∧
          Dispatched ((Expr.operands args).filter Operand.calls)
            (Lower.plain (Lower.passed callee (Expr.operands args)) regs) code) ∧
    (∀ {signature : Signature} {expr : Expr} {σ : Session} {code : Code} {τ : Session},
      (Lower.ret signature expr).run σ = (.ok code, τ) →
        Staged ([expr.operand].filter Operand.calls) (Lower.plain [expr.operand] [.result]) code) ∧
    ∀ {code : Code} {indent : Nat}, (∀ line ∈ code, line.Proper) →
      (∀ label ∈ code.labels, label.Placed) →
        (Mark.readAll (code.render indent)).any Mark.callsOut = code.callsOut :=
  ⟨fun {expr} _ _ _ _ h => expr.operand_exact h, Stmt.lowerBlock_callsOut,
    fun h => ⟨Function.compile_callsOut h, fun hunderscore hname hcallees =>
        Program.Compiles.callsOut_readAll ⟨_, _, rfl, h⟩ hunderscore hname hcallees,
      fun _ => Function.compile_records_link h⟩,
    Lower.call_dispatched (Expr.forall_operands.mpr fun expr _ => expr.operand_exact), Lower.ret_staged,
    Code.callsOut_readAll⟩

/-- `int f(int a) { return g(a, h(a)); }`, and the call of `g` on its own. -/
theorem containsCalls_exact_nested :
    let a : Expr := .var "a" .int
    let args : List Expr := [a, .call "h" [a] .int]
    let function : Function := ⟨⟨.int, "f", [⟨.int, "a"⟩]⟩, [.ret (.call "g" args .int)]⟩
    let declared : List Signature :=
      [⟨.int, "h", [⟨.int, "x"⟩]⟩, ⟨.int, "g", [⟨.int, "x"⟩, ⟨.int, "y"⟩]⟩]
    let start : Session := { Session.start {} with declared }
    let inside : Session := { start with frames := [Frame.Op.apply {} (.addVariable .int "a")] }
    (∃ code τ between, function.compile.run start = (.ok code, τ) ∧
      (Mark.readAll (code.render 8)).any Mark.callsOut = true ∧
      code = start.options.functionHeader function.name ++
        .instr (.pushPair .framePointer .linkRegister) :: between ++
        Code.ofInstrs [.popPair .framePointer .linkRegister, .ret]) ∧
    ∃ code τ, (Lower.call "g" (Expr.operands args) none).run inside = (.ok code, τ) ∧
      Dispatched [(Expr.call "h" [a] .int).operand] [(a.operand, .x0)] code := by
  intro a args function declared start inside
  obtain ⟨-, -, hfunction, hcall, -, -⟩ := containsCalls_exact
  constructor
  · obtain ⟨code, τ, hcode, htest⟩ := StepM.exists_of_any (function.compile.run start)
      (fun code _ => decide (Line.instr (.bl (.named "_g")) ∈ code)) (by decide +kernel)
    obtain ⟨-, htext, hrecord⟩ := hfunction hcode
    obtain ⟨between, hbetween⟩ := hrecord _ (of_decide_eq_true htest) List.mem_cons_self
    exact ⟨code, τ, between, hcode, htext rfl (by decide) (by decide) 8, hbetween⟩
  · obtain ⟨code, τ, hcode, -⟩ := StepM.exists_of_any
      ((Lower.call "g" (Expr.operands args) none).run inside) (fun _ _ => true) (by decide +kernel)
    obtain ⟨regs, hregs, hdispatched⟩ := hcall hcode
    cases hregs
    exact ⟨code, τ, hcode, hdispatched⟩

end ArmBackend
