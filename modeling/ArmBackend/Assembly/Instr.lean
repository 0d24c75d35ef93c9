import ArmBackend.Assembly.Label
import ArmBackend.Operator
import ArmBackend.Register

/-!
# Instructions

The instruction forms that the back end emits, and how each is written.
-/

namespace ArmBackend

/-- The memory operand of a load or store. -/
inductive Address where
  /-- `offset` bytes below the frame pointer. -/
  | frame (offset : Int)
  /-- The address that the register holds. -/
  | base (reg : Register)
deriving DecidableEq

def Address.text : Address → String
  | .frame offset => s!"[{Register.framePointer}, #-{offset}]"
  | .base reg => s!"[{reg}]"

inductive Instr where
  | mov (dst src : Register)
  | movImm (dst : Register) (imm : Nat)
  /-- Replaces the 16 bits of `dst` that start at bit `shift`. -/
  | movk (dst : Register) (chunk shift : Nat)
  | arith (op : Arith) (dst lhs rhs : Register)
  | addImm (dst src : Register) (imm : Nat)
  | subImm (dst src : Register) (imm : Nat)
  /-- Adds `imm` times 4096. -/
  | addImmPages (dst src : Register) (imm : Nat)
  /-- Subtracts `imm` times 4096. -/
  | subImmPages (dst src : Register) (imm : Nat)
  | udiv (dst lhs rhs : Register)
  /-- `dst = acc - lhs * rhs`. -/
  | msub (dst lhs rhs acc : Register)
  | neg (dst src : Register)
  /-- Negates if the condition holds and copies otherwise. -/
  | cneg (dst src : Register) (cond : Cond)
  /-- Bitwise complement. -/
  | mvn (dst src : Register)
  /-- Keeps the low byte. -/
  | maskByte (dst src : Register)
  | cmp (lhs rhs : Register)
  | cmpImm (lhs : Register) (imm : Nat)
  /-- 1 if the condition holds and 0 otherwise. -/
  | cset (dst : Register) (cond : Cond)
  | load (width : Width) (dst : Register) (address : Address)
  | store (width : Width) (src : Register) (address : Address)
  | push (reg : Register)
  | pushPair (first second : Register)
  | pop (reg : Register)
  | popPair (first second : Register)
  /-- The page of a label. -/
  | adrp (dst : Register) (label : Label)
  /-- Adds the offset of a label in its page. -/
  | addPageOffset (dst src : Register) (label : Label)
  | b (label : Label)
  | bCond (cond : Cond) (label : Label)
  /-- Branches if the register is not 0. -/
  | cbnz (reg : Register) (label : Label)
  | bl (label : Label)
  | svc (imm : Nat)
  | ret
deriving DecidableEq

/-- A register as the operand of an access of the given width. -/
def Width.operandText (width : Width) (reg : Register) : String :=
  match width with
  | .byte => reg.lowText
  | .word => reg.text

def Width.loadMnemonic : Width → String
  | .byte => "ldrb"
  | .word => "ldr"

def Width.storeMnemonic : Width → String
  | .byte => "strb"
  | .word => "str"

/-- Lower-case hexadecimal digits. -/
def hexText (n : Nat) : String := String.ofList (Nat.toDigits 16 n)

def Instr.text : Instr → String
  | .mov dst src => s!"mov {dst}, {src}"
  | .movImm dst imm => s!"mov {dst}, #{imm}"
  | .movk dst chunk shift => s!"movk {dst}, #{chunk}, LSL #{shift}"
  | .arith op dst lhs rhs => s!"{op.mnemonic} {dst}, {lhs}, {rhs}"
  | .addImm dst src imm => s!"add {dst}, {src}, #{imm}"
  | .subImm dst src imm => s!"sub {dst}, {src}, #{imm}"
  | .addImmPages dst src imm => s!"add {dst}, {src}, #{imm}, lsl #12"
  | .subImmPages dst src imm => s!"sub {dst}, {src}, #{imm}, lsl #12"
  | .udiv dst lhs rhs => s!"udiv {dst}, {lhs}, {rhs}"
  | .msub dst lhs rhs acc => s!"msub {dst}, {lhs}, {rhs}, {acc}"
  | .neg dst src => s!"neg {dst}, {src}"
  | .cneg dst src cond => s!"cneg {dst}, {src}, {cond.code}"
  | .mvn dst src => s!"mvn {dst}, {src}"
  | .maskByte dst src => s!"and {dst}, {src}, #0xff"
  | .cmp lhs rhs => s!"cmp {lhs}, {rhs}"
  | .cmpImm lhs imm => s!"cmp {lhs}, #{imm}"
  | .cset dst cond => s!"cset {dst}, {cond.code}"
  | .load width dst address =>
    s!"{width.loadMnemonic} {width.operandText dst}, {address.text}"
  | .store width src address =>
    s!"{width.storeMnemonic} {width.operandText src}, {address.text}"
  | .push reg => s!"str {reg}, [sp, #-16]!"
  | .pushPair first second => s!"stp {first}, {second}, [sp, #-16]!"
  | .pop reg => s!"ldr {reg}, [sp], #16"
  | .popPair first second => s!"ldp {first}, {second}, [sp], #16"
  | .adrp dst label => s!"adrp {dst}, {label}@PAGE"
  | .addPageOffset dst src label => s!"add {dst}, {src}, {label}@PAGEOFF"
  | .b label => s!"b {label}"
  | .bCond cond label => s!"b.{cond.code} {label}"
  | .cbnz reg label => s!"cbnz {reg}, {label}"
  | .bl label => s!"bl {label}"
  | .svc imm => s!"svc #0x{hexText imm}"
  | .ret => "ret"

end ArmBackend
