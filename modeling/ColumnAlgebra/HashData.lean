import ColumnAlgebra.Column.Basic
import ColumnAlgebra.Element.Basic

/-!
# Data fed to a hash

A column gives its length and then its slots; a slot gives a mark that tells empty from present and
then its value. Integers and characters have a fixed number of bytes, the lowest first, and a text ends
in a byte that no text contains, so equal data come from equal columns only.
-/

namespace ColumnAlgebra
set_option autoImplicit false

namespace HashData

/-- The lowest `n` bytes of a natural, the lowest first. -/
def bytes : (n : Nat) → Nat → List UInt8
  | 0, _ => []
  | n + 1, x => UInt8.ofNat x :: bytes n (x / 256)

def int {k : IntKind} (x : FixedInt k) : List UInt8 := bytes (k.bits / 8) x.word.toNat

def slot {α : Type} (data : α → List UInt8) : Nullable α → List UInt8
  | .null => bytes 8 0
  | .value a => bytes 8 1 ++ data a

def column {α : Type} (data : α → List UInt8) (c : Column α) : List UInt8 :=
  bytes 8 c.length ++ c.slots.flatMap (slot data)

end HashData

/-- Floating point numbers cannot be hashed. -/
def ElementType.hashData? : (t : ElementType) → Option (t.Value → List UInt8)
  | int _ => some HashData.int
  | float _ => none
  | bool => some fun x => HashData.bytes 1 (Bool.toNat x)
  | char => some fun x => HashData.bytes 4 (Char.toNat x)
  | text => some fun x => (String.toUTF8 x).data.toList ++ [0xff]
  | nested => some (HashData.slot HashData.int)

end ColumnAlgebra
