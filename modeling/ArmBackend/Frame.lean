import ArmBackend.RegSet
import ArmBackend.Reservation
import ArmBackend.Step

/-!
# Stack frames

The storage of one function body while it is lowered: slots for variables, registers and slots for
temporaries, the names in scope and the enclosing loops. Storage is taken and given back like a
stack, and no variable comes or goes while a temporary is live.
-/

namespace ArmBackend

structure Frame where
  /-- The live variables, newest first. -/
  locals : List Slot := []
  /-- The live temporaries, newest first. -/
  temporaries : List Reservation := []
  /-- The registers that live temporaries occupy. -/
  liveRegs : RegSet := {}
  /-- What the names stand for, newest binding first. -/
  symbols : List (String × Slot) := []
  /-- Bytes taken below the frame pointer. -/
  position : Nat := 0
  /-- The largest position so far. -/
  highWater : Nat := 0
  /-- What each live slot was padded with, newest first. -/
  paddings : List Nat := []
  /-- The ids of the enclosing loops, innermost first. -/
  loops : List Nat := []
  /-- How many temporaries found no register. -/
  spills : Nat := 0
deriving DecidableEq

/-- An operation on a frame. -/
abbrev FrameM := StepM Frame

namespace Frame

/-! ## Slots -/

/-- Takes the next slot for a value of type `ty`, aligned to its own size, and yields its offset. -/
def takeSlot (ty : Ty) : FrameM Nat := do
  if ty.size = 0 then throw (.typeViolation (.unsizedSlot ty))
  let frame ← get
  let padding := paddingTo ty.size frame.position
  let position := frame.position + (padding + ty.size)
  set { frame with
    position
    highWater := max frame.highWater position
    paddings := padding :: frame.paddings }
  return position

theorem takeSlot_run (ty : Ty) (frame : Frame) :
    (takeSlot ty).run frame =
      if ty.size = 0 then (.error (.typeViolation (.unsizedSlot ty)), frame)
      else
        let padding := paddingTo ty.size frame.position
        let position := frame.position + (padding + ty.size)
        (.ok position, { frame with
          position
          highWater := max frame.highWater position
          paddings := padding :: frame.paddings }) := by
  simp [takeSlot]

/-- Gives back the newest slot, which holds a value of type `ty`. -/
def dropSlot (ty : Ty) : FrameM Unit := do
  let frame ← get
  match frame.paddings with
  | [] => throw (.internal .slotReleasedTwice)
  | padding :: paddings =>
    set { frame with paddings }
    if frame.position < padding + ty.size then throw (.internal .positionUnderflow)
    set { frame with paddings, position := frame.position - (padding + ty.size) }

theorem dropSlot_run (ty : Ty) (frame : Frame) :
    (dropSlot ty).run frame =
      match frame.paddings with
      | [] => (.error (.internal .slotReleasedTwice), frame)
      | padding :: paddings =>
        if frame.position < padding + ty.size then
          (.error (.internal .positionUnderflow), { frame with paddings })
        else
          (.ok (), { frame with
            paddings
            position := frame.position - (padding + ty.size) }) := by
  cases h : frame.paddings <;> simp [dropSlot, h]

/-! ## Variables -/

def requireNoTemporaries (action : VariableAction) : FrameM Unit := do
  let frame ← get
  unless frame.temporaries.isEmpty do
    throw (.internal (.variableBelowTemporaries action frame.temporaries.length))

def reserveVariable (ty : Ty) : FrameM Slot := do
  requireNoTemporaries .reserve
  let offset ← takeSlot ty
  let slot : Slot := ⟨offset, ty⟩
  modify fun frame => { frame with locals := slot :: frame.locals }
  return slot

/-- Releases the newest variable. Its name keeps its binding. -/
def releaseVariable : FrameM Unit := do
  requireNoTemporaries .release
  let frame ← get
  match frame.locals with
  | [] => throw (.internal .noVariable)
  | slot :: locals =>
    set { frame with locals }
    dropSlot slot.ty

/-- Binds `name` to a new variable, over any earlier binding. -/
def addVariable (ty : Ty) (name : String) : FrameM Slot := do
  let slot ← reserveVariable ty
  modify fun frame => { frame with symbols := (name, slot) :: frame.symbols }
  return slot

/-- The variable that `name` is bound to. -/
def resolve (name : String) : FrameM Slot := do
  match (← get).symbols.lookup name with
  | some slot => return slot
  | none => throw (.undefinedVariable name)

/-! ## Temporaries -/

/-- Reserves the first free register of the bank, or a slot once all of them are live. -/
def reserveTemp (ty : Ty) : FrameM Reservation := do
  unless ty.storable do throw (.typeViolation (.unsizedTemporary ty))
  match (← get).liveRegs.firstFree? Register.tempBank with
  | some reg =>
    let res := Reservation.ofReg ty reg
    modify fun frame => { frame with
      liveRegs := frame.liveRegs.insert reg
      temporaries := res :: frame.temporaries }
    return res
  | none =>
    let offset ← takeSlot ty
    let res := Slot.reservation ⟨offset, ty⟩
    modify fun frame => { frame with
      spills := frame.spills + 1
      temporaries := res :: frame.temporaries }
    return res

/-- Releases the newest temporary. -/
def releaseTemp : FrameM Unit := do
  let frame ← get
  match frame.temporaries with
  | [] => throw (.internal .noTemporary)
  | res :: temporaries =>
    set { frame with temporaries }
    match res.register? with
    | some reg => modify fun frame => { frame with liveRegs := frame.liveRegs.erase reg }
    | none => dropSlot res.ty

/-- The registers of live temporaries, in bank order. -/
def liveTempRegs (frame : Frame) : List Register := Register.tempBank.filter frame.liveRegs.contains

/-! ## Loops -/

def pushLoop (id : Nat) (frame : Frame) : Frame := { frame with loops := id :: frame.loops }

def popLoop (frame : Frame) : Frame := { frame with loops := frame.loops.tail }

def currentLoop? (frame : Frame) : Option Nat := frame.loops.head?

end Frame

end ArmBackend
