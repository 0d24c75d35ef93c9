import ArmBackend.Assembly.Code
import ArmBackend.Error
import ArmBackend.Reservation

/-!
# Moving values

Code that builds constants and addresses and moves values between registers, slots and memory. A
value on its way to a slot passes through x16. A slot that a direct access does not reach has its
address computed first.
-/

namespace ArmBackend.Code

/-- The largest offset below the frame pointer that a load or store reaches directly. -/
def maxDirectOffset : Int := 256

/-- The largest immediate of an addition or subtraction. -/
def maxAddImm : Nat := 4095

/-! ## Registers and constants -/

/-- Nothing is needed between a register and itself. -/
def move (dst src : Register) : Code := if dst = src then [] else ofInstrs [.mov dst src]

/-- The low 16 bits are moved and the higher chunks inserted where they are not 0. -/
def constant (dst : Register) (bits : Word) : Code :=
  ofInstrs (.movImm dst (bits.chunk 0) ::
    [16, 32, 48].filterMap fun shift =>
      if bits.chunk shift = 0 then none else some (.movk dst (bits.chunk shift) shift))

/-! ## Addresses -/

/-- `dst = fp - offset`. -/
def frameAddress (dst : Register) (offset : Int) : Code :=
  let distance := BitVec.ofInt 64 offset
  if distance.toNat ≤ maxAddImm then ofInstrs [.subImm dst .framePointer distance.toNat]
  else constant dst distance ++ ofInstrs [.arith .sub dst .framePointer dst]

/-- The operand that reaches the slot at `offset`, after code that may use `via` for its address. -/
def slotAddress (via : Register) (offset : Int) : Code × Address :=
  if offset ≤ maxDirectOffset then ([], .frame offset)
  else (frameAddress via offset, if via = .framePointer then .frame offset else .base via)

/-- The address of a label in the data section. -/
def labelAddress (dst : Register) (label : Label) : Code :=
  ofInstrs [.adrp dst label, .addPageOffset dst dst label]

inductive StackChange where
  | grow
  | shrink
deriving DecidableEq

/-- Moves the stack pointer by `size` bytes. -/
def adjustStack (change : StackChange) (size : Nat) : Code :=
  if size ≤ maxAddImm then
    match change with
    | .grow => ofInstrs [.subImm .stackPointer .stackPointer size]
    | .shrink => ofInstrs [.addImm .stackPointer .stackPointer size]
  else if size % 4096 = 0 ∧ size / 4096 ≤ maxAddImm then
    match change with
    | .grow => ofInstrs [.subImmPages .stackPointer .stackPointer (size / 4096)]
    | .shrink => ofInstrs [.addImmPages .stackPointer .stackPointer (size / 4096)]
  else
    constant .staging (.ofNat 64 size) ++
      match change with
      | .grow => ofInstrs [.arith .sub .stackPointer .stackPointer .staging]
      | .shrink => ofInstrs [.arith .add .stackPointer .stackPointer .staging]

/-! ## Loads and stores -/

/-- A slot out of direct reach is addressed through `dst` itself. -/
def loadSlot (dst : Register) (offset : Int) (ty : Ty) : Code :=
  let (setup, address) := slotAddress dst offset
  setup ++ ofInstrs [.load ty.width dst address]

/-- A slot out of direct reach is addressed through the scratch register that `src` is not. -/
def storeSlot (src : Register) (offset : Int) (ty : Ty) : Code :=
  let (setup, address) := slotAddress (if src = .operand then .staging else .operand) offset
  setup ++ ofInstrs [.store ty.width src address]

/-- Loads a value of type `ty` from the address in `base`. -/
def loadThrough (dst base : Register) (ty : Ty) : Code :=
  ofInstrs [.load ty.width dst (.base base)]

/-- Stores a value of type `ty` to the address in `base`. -/
def storeThrough (src base : Register) (ty : Ty) : Code :=
  ofInstrs [.store ty.width src (.base base)]

/-! ## Reservations -/

/-- Copies a value. A load has the width of the source's type and a store that of the target's. -/
def copy (source target : Reservation) : Except CompileError Code :=
  if source.sameStorage target then .ok []
  else
    match source.location, target.location with
    | .reg src, .reg dst => .ok (move dst src)
    | .reg src, .slot offset => .ok (storeSlot src offset target.ty)
    | .slot offset, .reg dst => .ok (loadSlot dst offset source.ty)
    | .slot src, .slot dst =>
      .ok (loadSlot .staging src source.ty ++ storeSlot .staging dst target.ty)
    | .unassigned, _ => .error (.internal .copyFromUnassigned)
    | _, .unassigned => .error (.internal .copyIntoUnassigned)

/-- Puts a constant into a reservation. -/
def putConstant (target : Reservation) (bits : Word) : Except CompileError Code :=
  match target.location with
  | .reg reg => .ok (constant reg bits)
  | .slot offset => .ok (constant .staging bits ++ storeSlot .staging offset target.ty)
  | .unassigned => .error (.internal .constantIntoUnassigned)

/-- A register that holds the value, and the code that takes it there if it is not in one. -/
def operandOf (res : Reservation) : Except CompileError (Code × Register) :=
  match res.register? with
  | some reg => .ok ([], reg)
  | none => do return (← copy res (res.inRegister .operand), .operand)

end ArmBackend.Code
