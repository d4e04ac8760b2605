import ColumnAlgebra.Fault
import ColumnAlgebra.Handle

/-!
# Edits

Everything that changes a column in place, as data. Making room for more slots leaves the slots as
they are, and fails only where memory could not address that many.
-/

namespace ColumnAlgebra
set_option autoImplicit false

variable {α : Type}

/-- `limit` is the number of slots that memory can address. -/
def Column.reserve (limit capacity : Nat) (c : Column α) : Outcome Fault (Column α) :=
  if limit < capacity then .error .capacityOverflow else pure c

inductive Edit (α : Type) where
  | push (s : Nullable α)
  | set (i : SlotIndex) (s : Nullable α)
  | reset (i : SlotIndex)
  | assign (a : α)
  | assignNull
  | clear
  | reserve (capacity : Nat)
  | shrinkToFit
  | assignHandle (i : SlotIndex) (s : Nullable α)
  | resetHandle (i : SlotIndex)

/-- Whether a single write was accepted, or that room was made. -/
inductive EditReply where
  | done
  | flag (b : Bool)
  deriving DecidableEq

namespace Edit

def onSlot (c : Outcome Fault (Column α × Bool)) : Outcome Fault (Column α × EditReply) :=
  (fun (c, accepted) => (c, .flag accepted)) <$> c

def onHandle (h : Outcome Fault (Handle α × Bool)) : Outcome Fault (Column α × EditReply) :=
  (fun (h, accepted) => (h.column, .flag accepted)) <$> h

def run (limit : Nat) (c : Column α) : Edit α → Outcome Fault (Column α × EditReply)
  | push s => pure (c.push s, .done)
  | set i s => onSlot (c.set i s)
  | reset i => onSlot (c.reset i)
  | assign a => (·, .done) <$> c.assign a
  | assignNull => (·, .done) <$> c.assignNull
  | clear => (·, .done) <$> c.clear
  | reserve capacity => (·, .flag true) <$> c.reserve limit capacity
  | shrinkToFit => pure (c, .flag true)
  | assignHandle i s => onHandle ((c.handle i).assign s)
  | resetHandle i => onHandle (c.handle i).assignNull

end Edit
end ColumnAlgebra
