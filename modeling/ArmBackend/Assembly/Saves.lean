import ArmBackend.Assembly.Code

/-!
# Saving registers

Code that pushes registers in pairs, a last one alone, and code that pops them again. Every push moves
the stack pointer by 16 bytes.
-/

namespace ArmBackend

/-- Bytes that one push takes, of a pair or of a single register. -/
def saveSlotSize : Nat := 16

namespace Code

def pushes : List Register → List Instr
  | [] => []
  | [reg] => [.push reg]
  | first :: second :: regs => .pushPair first second :: pushes regs

/-- The pops that undo `pushes` of the same registers. -/
def pops : List Register → List Instr
  | [] => []
  | [reg] => [.pop reg]
  | first :: second :: regs => pops regs ++ [.popPair first second]

def saveRegs (regs : List Register) : Code := ofInstrs (pushes regs)

def restoreRegs (regs : List Register) : Code := ofInstrs (pops regs)

end Code

end ArmBackend
