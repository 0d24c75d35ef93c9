import ArmBackend.Function
import ArmBackend.Options

/-!
# Builtin functions

Routines that a program may call without declaring them. Their code is added to a unit that calls them
and does not define them itself.
-/

namespace ArmBackend

inductive Builtin where
  /-- Writes an integer in decimal and a newline to standard output. -/
  | printInt
deriving DecidableEq

namespace Builtin

def all : List Builtin := [.printInt]

def name : Builtin → String
  | .printInt => "printi"

def ofName? (name : String) : Option Builtin := all.find? (·.name == name)

def signature : Builtin → Signature
  | .printInt => ⟨.void, "printi", [⟨.int, "i"⟩]⟩

/-! ## Printing an integer -/

/-- Bytes of the buffer: a sign, 20 digits and a newline fit. -/
def printBuffer : Nat := 32

/-- The number of the system call that writes. -/
def writeCall : Nat := 4

def standardOutput : Nat := 1

def digitLabel : Label := .named "L_printi_digit"

def writeLabel : Label := .named "L_printi_write"

/-- The text is built from the end of the buffer downward. x1 points at its first byte so far, x3
holds the digits that are left, and only x0 to x5 and x16 change. -/
def printIntBody : Code :=
  Code.ofInstrs
    [.subImm .stackPointer .stackPointer printBuffer,
      .addImm .x1 .stackPointer printBuffer,
      .movImm .x2 10,
      .subImm .x1 .x1 1,
      .store .byte .x2 (.base .x1),
      .cmpImm .x0 0,
      .cneg .x3 .x0 .lt] ++
  .label digitLabel :: Code.ofInstrs
    [.udiv .x4 .x3 .x2,
      .msub .x5 .x4 .x2 .x3,
      .addImm .x5 .x5 48,
      .subImm .x1 .x1 1,
      .store .byte .x5 (.base .x1),
      .mov .x3 .x4,
      .cbnz .x3 digitLabel,
      .cmpImm .x0 0,
      .bCond .ge writeLabel,
      .movImm .x5 45,
      .subImm .x1 .x1 1,
      .store .byte .x5 (.base .x1)] ++
  .label writeLabel :: Code.ofInstrs
    [.addImm .x2 .stackPointer printBuffer,
      .arith .sub .x2 .x2 .x1,
      .movImm .x0 standardOutput,
      .movImm .trapNumber writeCall,
      .svc 0x80,
      .addImm .stackPointer .stackPointer printBuffer,
      .ret]

def body : Builtin → Code
  | .printInt => printIntBody

def code (builtin : Builtin) (options : Options) : Code :=
  options.functionHeader builtin.name ++ builtin.body

end Builtin

end ArmBackend
