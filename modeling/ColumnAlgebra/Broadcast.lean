import ColumnAlgebra.Handle

/-!
# Right operands of a column

What stands to the right of a column gives a slot for every position. A column also has a number of
slots and is empty past them; everything else repeats one slot.
-/

namespace ColumnAlgebra
set_option autoImplicit false

structure Broadcast (α : Type) where
  slotCount : Option Nat
  slot : Nat → Nullable α

variable {α : Type}

def Column.broadcast (c : Column α) : Broadcast α := ⟨some c.length, c.slot⟩

def Nullable.broadcast (s : Nullable α) : Broadcast α := ⟨none, fun _ => s⟩

def Handle.broadcast (h : Handle α) : Broadcast α := ⟨none, fun _ => h.get⟩

end ColumnAlgebra
