import ArmBackend.Proofs.Expr.Eval
import ArmBackend.Stmt

/-!
# The shape of statements

Induction over statements, and bodies that declare variables at their top level only.
-/

namespace ArmBackend

structure Expr.Plain (expr : Expr) : Prop where
  built : expr.Built
  arrayFree : expr.arrayFree = true

namespace Stmt

/-- Induction over a statement with one case for each form. Blocks are covered by their members. -/
@[elab_as_elim]
theorem induct {P : Stmt → Prop} (declare : ∀ ty name, P (.declare ty name))
    (init : ∀ ty name value, P (.init ty name value))
    (assign : ∀ name value, P (.assign name value))
    (store : ∀ pointer value, P (.store pointer value)) (ret : ∀ value, P (.ret value))
    (call : ∀ callee args, P (.call callee args))
    (ifElse : ∀ cond thenBlock elseBlock, (∀ stmt ∈ thenBlock, P stmt) →
      (∀ stmt ∈ elseBlock, P stmt) → P (.ifElse cond thenBlock elseBlock))
    (loop : ∀ cond body, (∀ stmt ∈ body, P stmt) → P (.loop cond body))
    (breakLoop : P .breakLoop) (continueLoop : P .continueLoop) (stmt : Stmt) : P stmt :=
  @Stmt.rec P (fun stmts => ∀ stmt ∈ stmts, P stmt) declare init assign store ret call ifElse loop
    breakLoop continueLoop (fun _ h => absurd h List.not_mem_nil)
    (fun _ _ hhead htail _ h => (List.mem_cons.mp h).elim (· ▸ hhead) (htail _)) stmt

mutual

/-- Whether the statement declares nothing, stores through no pointer and has plain expressions. -/
def Inner : Stmt → Prop
  | .assign _ value | .ret value => value.Plain
  | .call _ args => ∀ arg ∈ args, arg.Plain
  | .ifElse cond thenBlock elseBlock => cond.Plain ∧ AllInner thenBlock ∧ AllInner elseBlock
  | .loop cond body => cond.Plain ∧ AllInner body
  | .breakLoop | .continueLoop => True
  | .declare .. | .init .. | .store .. => False

def AllInner : List Stmt → Prop
  | [] => True
  | stmt :: stmts => stmt.Inner ∧ AllInner stmts

end

theorem allInner_iff {stmts : List Stmt} : AllInner stmts ↔ ∀ stmt ∈ stmts, stmt.Inner := by
  induction stmts with
  | nil => simp [AllInner]
  | cons stmt stmts ih => simp [AllInner, ih]

theorem blockContainsCalls_iff {stmts : List Stmt} :
    blockContainsCalls stmts = true ↔ ∃ stmt ∈ stmts, stmt.containsCalls = true := by
  induction stmts with
  | nil => simp [blockContainsCalls]
  | cons stmt stmts ih => simp [blockContainsCalls, ih]

def Outer : Stmt → Prop
  | .declare .. => True
  | .init _ _ value => value.Plain
  | stmt => stmt.Inner

end Stmt

end ArmBackend
