import ArmBackend.Asciz
import ArmBackend.Assembly.Instr

/-!
# Assembly code

Code is a list of lines. Only its rendering knows about indentation.
-/

namespace ArmBackend

inductive Directive where
  | textSection
  | dataSection
  | global (label : Label)
  /-- Alignment to a power of two. -/
  | align (power : Nat)
  /-- A string constant and its terminating zero byte. -/
  | asciz (content : String)
deriving DecidableEq

def Directive.text : Directive → String
  | .textSection => ".text"
  | .dataSection => ".data"
  | .global label => s!".globl {label}"
  | .align power => s!".p2align {power}"
  | .asciz content => s!".asciz \"{Asciz.escape content}\""

inductive Line where
  | instr (instr : Instr)
  | directive (directive : Directive)
  | label (label : Label)
deriving DecidableEq

abbrev Code := List Line

namespace Code

def ofInstrs (instrs : List Instr) : Code := instrs.map .instr

/-! ## Rendering -/

def pad (indent : Nat) : String := String.ofList (List.replicate indent ' ')

/-- A line with its newline. Labels are not indented. -/
def renderLine (indent : Nat) : Line → String
  | .instr instr => pad indent ++ instr.text ++ "\n"
  | .directive directive => pad indent ++ directive.text ++ "\n"
  | .label label => label.text ++ ":\n"

def render (indent : Nat) (code : Code) : String := String.join (code.map (renderLine indent))

@[simp] theorem render_nil (indent : Nat) : render indent [] = "" := rfl

theorem render_cons (indent : Nat) (line : Line) (code : Code) :
    render indent (line :: code) = renderLine indent line ++ render indent code := by
  simp [render, String.join_cons]

theorem render_append (indent : Nat) (a b : Code) :
    render indent (a ++ b) = render indent a ++ render indent b := by
  induction a with
  | nil => simp
  | cons line a ih => rw [List.cons_append, render_cons, render_cons, ih, String.append_assoc]

/-- The number of instructions and directives. -/
def size (code : Code) : Nat :=
  code.countP fun
    | .label _ => false
    | _ => true

@[simp] theorem size_append (a b : Code) : size (a ++ b) = size a + size b := List.countP_append

end Code

end ArmBackend
