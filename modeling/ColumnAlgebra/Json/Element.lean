import ColumnAlgebra.Element.Basic
import ColumnAlgebra.Json.Number
import ColumnAlgebra.Json.Slot

/-!
# JSON of elements

Numbers are written as numbers, and characters and texts as strings; a nested element is written as a
slot. Main functions: the texts of slots and columns of every element type, and their readers.
-/

namespace ColumnAlgebra
set_option autoImplicit false

namespace Json

def writeInt {k : IntKind} (x : FixedInt k) : List Char := Decimal.ofInt x.toInt

def readBool : Reader Bool := fun cs =>
  match word "true".toList cs with
  | some (_, rest) => some (true, rest)
  | none => (word "false".toList cs).map fun (_, rest) => (false, rest)

/-- A string of exactly one character. -/
def readChar : Reader Char := fun cs => do
  let (s, rest) ← readString cs
  match s.toList with
  | [c] => pure (c, rest)
  | _ => none

end Json

namespace ElementType

def writeJson : (t : ElementType) → t.Value → List Char
  | int _ => Json.writeInt
  | float k => fun x => ((Json.floatLayout k).text k x).toList
  | bool => fun x => (display .bool x).toList
  | char => fun x => Json.writeString (String.singleton x)
  | text => Json.writeString
  | nested => Json.writeSlot Json.writeInt

def readJson : (t : ElementType) → Json.Reader t.Value
  | int k => Json.readInt k
  | float k => Json.readFloat k
  | bool => Json.readBool
  | char => Json.readChar
  | text => Json.readString
  | nested => Json.readSlot (Json.readInt .i32)

def slotJson (t : ElementType) (s : Nullable t.Value) : String :=
  String.ofList (Json.writeSlot t.writeJson s)

def columnJson (t : ElementType) (c : Column t.Value) : String :=
  String.ofList (Json.writeColumn t.writeJson c)

def slotOfJson? (t : ElementType) (text : String) : Option (Nullable t.Value) :=
  Json.whole (Json.readSlot t.readJson) text

def columnOfJson? (t : ElementType) (text : String) : Option (Column t.Value) :=
  Json.whole (Json.readColumn t.readJson) text

end ElementType
end ColumnAlgebra
