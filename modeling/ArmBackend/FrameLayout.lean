import ArmBackend.Assembly.Saves
import ArmBackend.Assembly.Transfer

/-!
# Frame layout

What a function does with the stack on entry and on exit: how far it moves the stack pointer for its
slots, and whether it saves the frame record, x29 and x30.
-/

namespace ArmBackend

/-- The stack pointer is a multiple of this. -/
def stackAlign : Nat := 16

structure FrameLayout where
  /-- Bytes below the frame record. -/
  localsSize : Nat
  /-- Whether x29 and x30 are saved and x29 points at them. -/
  savesRecord : Bool
deriving DecidableEq

namespace FrameLayout

/-- The record is saved by a function that calls out or has slots to address. -/
def ofHighWater (highWater : Nat) (calls : Bool) : FrameLayout :=
  let localsSize := alignUp highWater stackAlign
  ⟨localsSize, calls || 0 < localsSize⟩

/-- How far the prologue moves the stack pointer. -/
def totalSize (layout : FrameLayout) : Nat :=
  layout.localsSize + if layout.savesRecord then saveSlotSize else 0

def prologue (layout : FrameLayout) : Code :=
  (if layout.savesRecord then
    Code.ofInstrs [.pushPair .framePointer .linkRegister, .mov .framePointer .stackPointer]
  else []) ++
  if 0 < layout.localsSize then Code.adjustStack .grow layout.localsSize else []

def epilogue (layout : FrameLayout) : Code :=
  (if 0 < layout.localsSize then Code.adjustStack .shrink layout.localsSize else []) ++
  (if layout.savesRecord then Code.ofInstrs [.popPair .framePointer .linkRegister] else []) ++
  Code.ofInstrs [.ret]

end FrameLayout

end ArmBackend
