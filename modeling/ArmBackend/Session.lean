import ArmBackend.Builtin
import ArmBackend.Frame
import ArmBackend.StaticData
import ArmBackend.Stats
import ArmBackend.Step

/-!
# Compilation sessions

What the compilation of a unit knows and gathers: the function tables, the frames of the functions
that are being lowered, the static data, the builtins in use, the label ids and the statistics. A
failed step keeps what was gathered before it failed.
-/

namespace ArmBackend

structure Session where
  options : Options
  /-- Declared signatures, newest first. -/
  declared : List Signature
  /-- Signatures of functions with a body, newest first. -/
  defined : List Signature := []
  /-- The open frames, innermost first. -/
  frames : List Frame := []
  data : StaticData := {}
  usedBuiltins : List Builtin := []
  nextIf : Nat := 0
  nextLoop : Nat := 0
  stats : Stats := {}

/-- A step of a compilation. -/
abbrev CompileM := StepM Session

namespace Session

/-- A session in which the builtins are declared and nothing else is. -/
def start (options : Options) : Session := { options, declared := Builtin.all.map Builtin.signature }

/-! ## Function tables -/

/-- The newest signature of a name. -/
def newest? (table : List Signature) (name : String) : Option Signature :=
  table.find? (·.name == name)

/-- Whether a table has a signature of the same name and other types. -/
def conflicts (table : List Signature) (signature : Signature) : Bool :=
  (newest? table signature.name).any (!·.sameTypes signature)

def isDefined (session : Session) (name : String) : Bool := (newest? session.defined name).isSome

/-- Adds a declaration, which has to agree with what is declared and defined. -/
def declare (signature : Signature) : CompileM Unit := do
  let session ← get
  if conflicts session.declared signature || conflicts session.defined signature then
    throw (.signatureConflict signature.name)
  set { session with declared := signature :: session.declared }

/-- Adds a definition, which has to agree with what is declared and be the first of its name. -/
def define (signature : Signature) : CompileM Unit := do
  let session ← get
  if conflicts session.declared signature then throw (.signatureConflict signature.name)
  if session.isDefined signature.name then throw (.redefinition signature.name)
  set { session with defined := signature :: session.defined }

/-- The signature of a declared or defined function. -/
def signatureOf (name : String) : CompileM Signature := do
  let session ← get
  match (newest? session.declared name).or (newest? session.defined name) with
  | some signature => return signature
  | none => throw (.undefinedFunction name)

/-! ## Frames -/

def pushFrame : CompileM Unit := modify fun session => { session with frames := {} :: session.frames }

def popFrame : CompileM Frame := do
  let session ← get
  match session.frames with
  | [] => throw (.internal .noFrame)
  | frame :: frames =>
    set { session with frames }
    return frame

/-- Runs an operation on the innermost frame. -/
def onFrame {α : Type} (operation : FrameM α) : CompileM α := do
  let session ← get
  match session.frames with
  | [] => throw (.internal .noFrame)
  | frame :: frames =>
    let result := operation.run frame
    set { session with frames := result.2 :: frames }
    result.1

theorem onFrame_run {α : Type} (operation : FrameM α) (session : Session) :
    (onFrame operation).run session =
      match session.frames with
      | [] => (.error (.internal .noFrame), session)
      | frame :: frames =>
        ((operation.run frame).1, { session with frames := (operation.run frame).2 :: frames }) := by
  cases h : session.frames <;> simp [onFrame, h]

/-- Runs a step on a new frame and yields the frame that it leaves. The frame is closed also if the
step fails. -/
def inFrame {α : Type} (step : CompileM α) : CompileM (α × Frame) := do
  pushFrame
  let outcome ← StepM.attempt step
  let frame ← popFrame
  let value ← outcome
  return (value, frame)

/-- Runs a step inside the loop `id`. The loop is left also if the step fails. -/
def inLoop {α : Type} (id : Nat) (step : CompileM α) : CompileM α := do
  onFrame (modify (Frame.pushLoop id))
  let outcome ← StepM.attempt step
  onFrame (modify Frame.popLoop)
  outcome

/-! ## Labels, data and builtins -/

/-- A new id for the labels of a branch. Ids are natural numbers, and stand for counters of 32 bits in sessions
that take fewer than `2 ^ 32` of either kind. -/
def freshIf : CompileM Nat := do
  let session ← get
  set { session with
    nextIf := session.nextIf + 1
    stats := { session.stats with labels := session.stats.labels + 3 } }
  return session.nextIf

/-- A new id for the labels of a loop, with the same bound. -/
def freshLoop : CompileM Nat := do
  let session ← get
  set { session with
    nextLoop := session.nextLoop + 1
    stats := { session.stats with labels := session.stats.labels + 3 } }
  return session.nextLoop

def intern (text : String) : CompileM Label := do
  let session ← get
  let result := session.data.intern text
  set { session with data := result.2 }
  return result.1

/-- Records the use of a function that is a builtin and that the unit does not define. -/
def markUsed (name : String) (session : Session) : Session :=
  match Builtin.ofName? name with
  | some builtin =>
    if session.isDefined name then session
    else { session with usedBuiltins := session.usedBuiltins.insert builtin }
  | none => session

/-- The builtins whose code the unit needs. -/
def neededBuiltins (session : Session) : List Builtin :=
  Builtin.all.filter (session.usedBuiltins.contains ·)

/-! ## Statistics -/

def recordCall (session : Session) : Session :=
  { session with stats := { session.stats with calls := session.stats.calls + 1 } }

def recordSaves (count : Nat) (session : Session) : Session :=
  { session with stats := { session.stats with saves := session.stats.saves + count } }

def recordFunction (name : String) (frame : Frame) (frameSize : Nat) (session : Session) : Session :=
  { session with stats := session.stats.recordFunction name frame.spills frameSize }

/-! ## Text -/

/-- Code as it is written in this session. -/
def render (session : Session) (code : Code) : String := code.render session.options.indent

end Session

end ArmBackend
