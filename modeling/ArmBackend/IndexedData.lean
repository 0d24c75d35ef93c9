import ArmBackend.StaticData
import Mathlib.Init

/-!
# Static data with an index

The table of string constants with a hash map from the texts to their ids, where `StaticData` searches its
texts. The two give the same labels and data.
-/

namespace ArmBackend

/-- The data by id, and the id of each text. -/
structure IndexedData where
  data : Array Datum := #[]
  byText : Std.HashMap String Nat := {}

namespace IndexedData

/-- The label of a text, which is added unless the index has it. There is no outcome where the index leads
outside the data. -/
def intern (table : IndexedData) (text : String) : Option (Label × IndexedData) :=
  match table.byText[text]? with
  | some id => (table.data[id]?).map fun datum => (datum.label, table)
  | none =>
    let datum : Datum := ⟨table.data.size, .string, text⟩
    some (datum.label, ⟨table.data.push datum, table.byText.insert text table.data.size⟩)

end IndexedData

end ArmBackend
