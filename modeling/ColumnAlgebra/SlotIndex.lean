import ColumnAlgebra.Decimal.Integer
import ColumnAlgebra.FixedInt.Basic

/-!
# Indices of slots

An index is an integer of any kind up to the width of an address. It names a position unless it is
negative; two indices of different kinds that stand for the same integer name the same position.
-/

namespace ColumnAlgebra
set_option autoImplicit false

structure SlotIndex where
  kind : IntKind
  addressable : kind.width ≠ .w128
  value : FixedInt kind

namespace SlotIndex

def ofInt? (k : IntKind) (n : Int) : Option SlotIndex :=
  if h : k.width ≠ .w128 then (FixedInt.ofInt? k n).map (SlotIndex.mk k h) else none

def toInt (i : SlotIndex) : Int := i.value.toInt

def position? (i : SlotIndex) : Option Nat := i.toInt.toNat?

def display (i : SlotIndex) : String := String.ofList (Decimal.ofInt i.toInt)

theorem position?_eq_some {i : SlotIndex} {n : Nat} : i.position? = some n ↔ i.toInt = n :=
  Int.mem_toNat?

end SlotIndex
end ColumnAlgebra
