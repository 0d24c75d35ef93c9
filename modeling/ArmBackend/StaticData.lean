import ArmBackend.Assembly.Code

/-!
# Static data

The string constants of a unit. A text that is used twice is stored once.
-/

namespace ArmBackend

structure Datum where
  id : Nat
  kind : DatumKind
  text : String
deriving DecidableEq

namespace Datum

def label (datum : Datum) : Label := .datum datum.kind datum.id

def code (datum : Datum) : Code :=
  (if 0 < datum.kind.alignment then [.directive (.align datum.kind.alignment)] else []) ++
  [.label datum.label, .directive (match datum.kind with | .string => .asciz datum.text)]

end Datum

structure StaticData where
  /-- The distinct texts in the order in which they were first interned. -/
  texts : List String := []
deriving DecidableEq

namespace StaticData

/-- The label of a text, which is added unless it is there. -/
def intern (table : StaticData) (text : String) : Label × StaticData :=
  match table.texts.idxOf? text with
  | some id => (.datum .string id, table)
  | none => (.datum .string table.texts.length, ⟨table.texts ++ [text]⟩)

def size (table : StaticData) : Nat := table.texts.length

def isEmpty (table : StaticData) : Bool := table.texts.isEmpty

def data (table : StaticData) : List Datum := table.texts.mapIdx fun id text => ⟨id, .string, text⟩

/-- The data section. -/
def code (table : StaticData) : Code := .directive .dataSection :: table.data.flatMap Datum.code

end StaticData

end ArmBackend
