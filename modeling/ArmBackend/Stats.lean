/-!
# Statistics of a compilation
-/

namespace ArmBackend

structure Stats where
  functions : Nat := 0
  /-- Calls and traps. -/
  calls : Nat := 0
  /-- Temporaries that found no register. -/
  spills : Nat := 0
  /-- Registers saved around calls. -/
  saves : Nat := 0
  /-- Labels of branches and loops. -/
  labels : Nat := 0
  /-- Bytes of the largest frame. -/
  largestFrame : Nat := 0
  /-- The function with the largest frame, empty before the first function. -/
  largestFunction : String := ""
deriving DecidableEq

namespace Stats

/-- Counts a finished function. -/
def recordFunction (stats : Stats) (name : String) (spills frameSize : Nat) : Stats :=
  let stats := { stats with functions := stats.functions + 1, spills := stats.spills + spills }
  if stats.largestFunction.isEmpty || stats.largestFrame < frameSize then
    { stats with largestFrame := frameSize, largestFunction := name }
  else stats

def text (stats : Stats) : String :=
  "Compilation Statistics:\n" ++
  s!"  Functions compiled: {stats.functions}\n" ++
  s!"  Calls emitted: {stats.calls}\n" ++
  s!"  Expression spills: {stats.spills}\n" ++
  s!"  Caller-save spills: {stats.saves}\n" ++
  s!"  Labels allocated: {stats.labels}\n" ++
  if stats.largestFunction.isEmpty then ""
  else s!"  Largest frame: {stats.largestFunction} ({stats.largestFrame} bytes)\n"

end Stats

end ArmBackend
