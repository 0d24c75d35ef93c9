import ArmBackend.Ty
import ArmBackend.Register

/-!
# Reservations

A reservation says where a value lives and which type decides how it is accessed. A slot is a
reservation in the frame.
-/

namespace ArmBackend

inductive Location where
  /-- No storage has been assigned. -/
  | unassigned
  | reg (reg : Register)
  /-- The bytes from `offset` below the frame pointer upward. -/
  | slot (offset : Int)
deriving DecidableEq

structure Reservation where
  location : Location := .unassigned
  ty : Ty := .void
deriving DecidableEq

namespace Reservation

def ofReg (ty : Ty) (reg : Register) : Reservation := ⟨.reg reg, ty⟩

def isAssigned (res : Reservation) : Bool := res.location != .unassigned

def register? (res : Reservation) : Option Register :=
  match res.location with
  | .reg reg => some reg
  | _ => none

def offset? (res : Reservation) : Option Int :=
  match res.location with
  | .slot offset => some offset
  | _ => none

/-- Whether both name the same storage, whatever their types. -/
def sameStorage (a b : Reservation) : Bool := a.location == b.location

/-- The same storage under another type. -/
def withTy (res : Reservation) (ty : Ty) : Reservation := { res with ty }

/-- A value of the same type in `reg`. -/
def inRegister (res : Reservation) (reg : Register) : Reservation := .ofReg res.ty reg

/-- The register of the reservation, or the one that stages its value. -/
def stagingRegister (res : Reservation) : Register := res.register?.getD .staging

def text (res : Reservation) : String :=
  match res.location with
  | .unassigned => s!"<unassigned> ({res.ty})"
  | .reg reg => s!"{reg} ({res.ty})"
  | .slot offset => s!"[fp, #-{offset}] ({res.ty})"

end Reservation

/-- A typed place in the frame, `offset` bytes below the frame pointer. -/
structure Slot where
  offset : Nat
  ty : Ty
deriving DecidableEq

def Slot.reservation (slot : Slot) : Reservation := ⟨.slot slot.offset, slot.ty⟩

end ArmBackend
