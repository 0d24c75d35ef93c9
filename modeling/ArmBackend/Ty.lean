import ArmBackend.Word

/-!
# Types

The types of the compiled language, the sizes of their values and their spelling.
-/

namespace ArmBackend

inductive Ty where
  | void
  | int
  | char
  | ptr (pointee : Ty)
  /-- An opaque aggregate. It has a name, no size and no operators. -/
  | custom (name : String)
deriving DecidableEq

namespace Ty

instance : Inhabited Ty := ⟨.void⟩

/-- Bytes of a value of this type, 0 if there is no such value. -/
def size : Ty → Nat
  | .void | .custom _ => 0
  | .char => 1
  | .int | .ptr _ => wordSize

/-- Whether a value of this type can live in a register or a slot. -/
def storable (ty : Ty) : Bool := 0 < ty.size

def isVoid : Ty → Bool
  | .void => true
  | _ => false

def isPointer : Ty → Bool
  | .ptr _ => true
  | _ => false

def isCustom : Ty → Bool
  | .custom _ => true
  | _ => false

/-- The integer types, which convert into each other. -/
def isInteger : Ty → Bool
  | .int | .char => true
  | _ => false

def pointee? : Ty → Option Ty
  | .ptr pointee => some pointee
  | _ => none

/-- Whether a value of type `value` may be passed where this type is expected. -/
def accepts (slot value : Ty) : Bool :=
  slot == value || (slot.isInteger && value.isInteger)

def text : Ty → String
  | .void => "void"
  | .int => "int"
  | .char => "char"
  | .ptr pointee => pointee.text ++ "*"
  | .custom name => name

instance : ToString Ty := ⟨text⟩

end Ty

/-! ## Access width -/

/-- How much one load or store moves. -/
inductive Width where
  | byte
  | word
deriving DecidableEq

def Width.bytes : Width → Nat
  | .byte => 1
  | .word => wordSize

/-- One-byte values are accessed as a byte and all others as a word. -/
def Ty.width (ty : Ty) : Width := if ty.size = 1 then .byte else .word

end ArmBackend
