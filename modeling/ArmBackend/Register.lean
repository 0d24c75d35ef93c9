/-!
# Registers

A general-purpose register is named by the role that the calling convention gives it. Its number
appears in its encoding and its spelling only.
-/

namespace ArmBackend

inductive Register where
  /-- x0 to x7. -/
  | arg (index : Fin 8)
  /-- x8. No aggregate is returned, so it holds temporaries as well. -/
  | indirectResult
  /-- x9 to x15. -/
  | temp (index : Fin 7)
  /-- x16 and x17. -/
  | scratch (index : Fin 2)
  /-- x19 to x28. -/
  | calleeSaved (index : Fin 10)
  /-- x29. Frame slots are addressed relative to it. -/
  | framePointer
  | linkRegister
  | stackPointer
deriving DecidableEq

namespace Register

/-- The number that encodes the register, 31 for the stack pointer. -/
def number : Register → Nat
  | .arg index => index
  | .indirectResult => 8
  | .temp index => 9 + index
  | .scratch index => 16 + index
  | .calleeSaved index => 19 + index
  | .framePointer => 29
  | .linkRegister => 30
  | .stackPointer => 31

theorem number_lt (reg : Register) : reg.number < 32 := by
  cases reg <;> simp only [number] <;> omega

theorem number_inj {a b : Register} : a.number = b.number ↔ a = b := by
  cases a <;> cases b <;> simp [number, Fin.ext_iff] <;> omega

/-- The name of the whole register. -/
def text : Register → String
  | .stackPointer => "sp"
  | reg => s!"x{reg.number}"

/-- The name of the low 32 bits, through which bytes are loaded and stored. -/
def lowText : Register → String
  | .stackPointer => "wsp"
  | reg => s!"w{reg.number}"

def role : Register → String
  | .arg index => s!"Arg{index.val}"
  | .indirectResult => "IndirectResult"
  | .temp index => s!"Temp{index.val}"
  | .scratch index => s!"Scratch{index.val}"
  | .calleeSaved index => s!"CalleeSaved{index.val}"
  | .framePointer => "FramePointer"
  | .linkRegister => "LinkRegister"
  | .stackPointer => "StackPointer"

instance : ToString Register := ⟨text⟩

/-! ## Banks -/

/-- The argument registers, in the order in which arguments take them. -/
def argBank : List Register := (List.finRange 8).map .arg

/-- The registers for temporaries, in the order in which they are handed out. -/
def tempBank : List Register := .indirectResult :: (List.finRange 7).map .temp

/-- All registers by number. -/
def all : List Register :=
  argBank ++ tempBank ++ (List.finRange 2).map .scratch ++ (List.finRange 10).map .calleeSaved ++
    [.framePointer, .linkRegister, .stackPointer]

def ofText? (text : String) : Option Register := all.find? (·.text == text)

/-! ## Registers with a purpose -/

abbrev x0 : Register := .arg 0
abbrev x1 : Register := .arg 1
abbrev x2 : Register := .arg 2
abbrev x3 : Register := .arg 3
abbrev x4 : Register := .arg 4
abbrev x5 : Register := .arg 5

/-- Where a function leaves its result. -/
def result : Register := x0

/-- Holds values on their way to a slot. -/
def staging : Register := .scratch 0

/-- Holds right operands, and values on their way through a pointer. -/
def operand : Register := .scratch 1

/-- Where a trap expects its number. -/
def trapNumber : Register := .scratch 0

end Register

end ArmBackend
