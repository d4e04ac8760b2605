import ColumnAlgebra.FixedInt.Arithmetic
import ColumnAlgebra.FloatKind.Arithmetic
import ColumnAlgebra.FloatKind.Layout
import ColumnAlgebra.Nullable

/-!
# Element types

The types of values that columns hold. A nested element is itself a nullable integer, and its own
emptiness is apart from that of the slot which holds it.
-/

namespace ColumnAlgebra
set_option autoImplicit false

inductive ElementType where
  | int (k : IntKind)
  | float (k : FloatKind)
  | bool
  | char
  | text
  | nested
  deriving DecidableEq

namespace ElementType

def Value : ElementType → Type
  | int k => FixedInt k
  | float k => k.Number
  | bool => Bool
  | char => Char
  | text => String
  | nested => Nullable (FixedInt .i32)

/-- The equality that the values bring with them. Of all types, only floating point numbers have one
that is not the identity: a NaN differs from itself, and the two zeros are equal. -/
def beq : (t : ElementType) → t.Value → t.Value → Bool
  | int k => fun (x y : FixedInt k) => decide (x = y)
  | float k => k.beq
  | bool => fun (x y : Bool) => decide (x = y)
  | char => fun (x y : Char) => decide (x = y)
  | text => fun (x y : String) => decide (x = y)
  | nested => Nullable.equal fun a b => decide (a = b)

/-- Numbers are written in full, without an exponent. -/
def displayLayout : FloatLayout :=
  { positional := none
    wholeSuffix := ""
    exponentPlus := false
    tieUp := true
    infinity := "inf"
    negativeInfinity := "-inf"
    nan := "NaN" }

def displayInt {k : IntKind} (x : FixedInt k) : String := String.ofList (Decimal.ofInt x.toInt)

def display : (t : ElementType) → t.Value → String
  | int _ => displayInt
  | float k => displayLayout.text k
  | bool => fun (x : Bool) => if x then "true" else "false"
  | char => String.singleton
  | text => id
  | nested => Nullable.display displayInt

/-- The bytes that a slot occupies: its value and, where the value leaves no spare pattern for an empty
slot, as much again. -/
def slotSize : ElementType → Nat
  | int k => 2 * (k.bits / 8)
  | float .single => 8
  | float .double => 16
  | bool => 1
  | char => 4
  | text => 24
  | nested => 8

/-- The number of slots that memory can address. -/
def maxSlots (t : ElementType) : Nat := (Nat.pow 2 63 - 1) / t.slotSize

end ElementType
end ColumnAlgebra
