import ArmBackend.Assembly.Listing
import ArmBackend.Program
import ArmBackend.Proofs.Expr.Isolated
import ArmBackend.Proofs.Expr.Straight
import ArmBackend.Proofs.Machine.Run
import ArmBackend.Proofs.Stmt.Activation
import ArmBackend.Proofs.Program.Correct
import ArmBackend.Stmt.Build
import ArmBackend.Proofs.Expr.Accepted
import ArmBackend.Proofs.Expr.Elements
import ArmBackend.Proofs.Expr.Lowers
import ArmBackend.Proofs.Function.Accepted
import ArmBackend.Proofs.Program.Accepted
import ArmBackend.Proofs.Stmt.Release
import ArmBackend.Proofs.Program.ByteResult
import ArmBackend.Proofs.Expr.Arithmetic
import ArmBackend.Proofs.Function.Preserves
import ArmBackend.Proofs.Stmt.Lifetime
import ArmBackend.Proofs.Function.Lifetime
import ArmBackend.Proofs.Frame.History
import ArmBackend.Proofs.Function.Discipline
import ArmBackend.Proofs.Program.Faultless
import ArmBackend.Proofs.Program.Lines
import ArmBackend.Proofs.Function.Framed
import ArmBackend.Proofs.Frame.Names
import ArmBackend.Proofs.Function.Atomic
import ArmBackend.Proofs.Expr.Outcall
import ArmBackend.Proofs.StaticData
import ArmBackend.Proofs.Program.Tables
import ArmBackend.Proofs.Program.Tally
import ArmBackend.Proofs.Machine.Copy
import ArmBackend.Proofs.Stmt.Store
import ArmBackend.Proofs.Expr.Array
import ArmBackend.Proofs.Machine.Traps
import ArmBackend.Proofs.Builtin
import ArmBackend.Proofs.Frame.Balance
import ArmBackend.Proofs.Frame.Refusals
import ArmBackend.Proofs.Function.Calls
import ArmBackend.Proofs.Expr.Bare
import ArmBackend.Proofs.Expr.Scaling
import ArmBackend.Proofs.Program.Calls
import ArmBackend.Proofs.Function.Inverse
import ArmBackend.Proofs.Machine.Undo
import ArmBackend.Proofs.Events
import ArmBackend.Proofs.Expr.Events
import ArmBackend.Proofs.Interning
import ArmBackend.Proofs.Function.Events
import ArmBackend.Proofs.Program.Shadowing
import ArmBackend.Proofs.Function.Immediates
import ArmBackend.Proofs.Stats
import ArmBackend.Proofs.Expr.Validated
import ArmBackend.Proofs.Stmt.Ids
import ArmBackend.Proofs.Program.Symbols
import ArmBackend.Proofs.RegSet
