import ColumnAlgebra.Column.Write

/-!
# Handles

A handle is a column together with a position, which may lie past the end or be none at all. It reads
and writes the column at the time of use, so nothing is checked when it is made.
-/

namespace ColumnAlgebra
set_option autoImplicit false

structure Handle (α : Type) where
  column : Column α
  position : Option Nat

variable {α : Type}

def Column.handle (c : Column α) (i : SlotIndex) : Handle α := ⟨c, i.position?⟩

namespace Handle

variable {ε : Type}

def get (h : Handle α) : Nullable α :=
  match h.position with
  | some n => h.column.slot n
  | none => .null

def hasValue (h : Handle α) : Bool := (h.position.bind (h.column.slots[·]?)).any Nullable.hasValue

def value (h : Handle α) : Option α := h.get.toOption

def tryValue (h : Handle α) : Except ColumnError α := h.get.tryValue

def display (text : α → String) (h : Handle α) : String := h.get.display text

/-- The handle on the written column, and whether the write was accepted. -/
def assign (h : Handle α) (s : Nullable α) : Outcome ε (Handle α × Bool) := do
  let (c, accepted) ← h.column.write h.position s
  pure (⟨c, h.position⟩, accepted)

def assignNull (h : Handle α) : Outcome ε (Handle α × Bool) := h.assign .null

/-- A write through a handle is the write to its position in its column. -/
theorem assign_eq_map (h : Handle α) (s : Nullable α) :
    (h.assign s : Outcome ε _) =
      (fun (c, accepted) => (⟨c, h.position⟩, accepted)) <$> h.column.write h.position s := by
  rw [map_eq_pure_bind]
  rfl

end Handle
end ColumnAlgebra
