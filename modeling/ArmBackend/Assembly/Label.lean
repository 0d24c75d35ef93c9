/-!
# Labels
-/

namespace ArmBackend

/-- What a static datum is. -/
inductive DatumKind where
  | string
deriving DecidableEq

def DatumKind.text : DatumKind → String
  | .string => "String"

/-- The alignment of a datum as a power of two. -/
def DatumKind.alignment : DatumKind → Nat
  | .string => 0

inductive Label where
  /-- A label that is written as it is, such as the symbol of a function. -/
  | named (name : String)
  /-- Where the return statements of a function branch to. -/
  | returnOf (function : String)
  | ifTrue (id : Nat)
  | ifFalse (id : Nat)
  | ifExit (id : Nat)
  | loopCond (id : Nat)
  | loopBody (id : Nat)
  | loopExit (id : Nat)
  | datum (kind : DatumKind) (id : Nat)
deriving DecidableEq

namespace Label

def text : Label → String
  | .named name => name
  | .returnOf function => s!"return_{function}"
  | .ifTrue id => s!"IF_TRUE_{id}"
  | .ifFalse id => s!"IF_FALSE_{id}"
  | .ifExit id => s!"IF_EXIT_{id}"
  | .loopCond id => s!"WHILE_COND_{id}"
  | .loopBody id => s!"WHILE_BODY_{id}"
  | .loopExit id => s!"WHILE_EXIT_{id}"
  | .datum kind id => s!"static.{kind.text}.{id}"

instance : ToString Label := ⟨text⟩

end Label

end ArmBackend
