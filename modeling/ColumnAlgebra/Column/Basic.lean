import ColumnAlgebra.ColumnError
import ColumnAlgebra.Nullable
import ColumnAlgebra.SlotIndex

/-!
# Columns

A column is a list of slots. It reads as an endless sequence of slots, all empty past its end, and
`length` says where it ends. The accessors differ only in what they answer at an index out of range.
-/

namespace ColumnAlgebra
set_option autoImplicit false

structure Column (α : Type) where
  slots : List (Nullable α)
  deriving DecidableEq

namespace Column

variable {α β : Type}

def empty : Column α := ⟨[]⟩

def ofValues (values : List α) : Column α := ⟨values.map .value⟩

def nulls (n : Nat) : Column α := ⟨List.replicate n .null⟩

def length (c : Column α) : Nat := c.slots.length

def isEmpty (c : Column α) : Bool := c.slots.isEmpty

def nullCount (c : Column α) : Nat := c.slots.countP Nullable.isNull

/-- The slot at a position, empty past the end. -/
def slot (c : Column α) (n : Nat) : Nullable α := c.slots[n]?.getD .null

def slotAt? (c : Column α) (i : SlotIndex) : Option (Nullable α) := do
  let n ← i.position?
  c.slots[n]?

def slotAt (c : Column α) (i : SlotIndex) : Nullable α :=
  match i.position? with
  | some n => c.slot n
  | none => .null

def trySlotAt (c : Column α) (i : SlotIndex) : Except ColumnError (Nullable α) :=
  match c.slotAt? i with
  | some s => .ok s
  | none => .error (.indexError i.display c.length)

def front (c : Column α) : Except ColumnError (Nullable α) :=
  match c.slots.head? with
  | some s => .ok s
  | none => .error .emptyColumn

def back (c : Column α) : Except ColumnError (Nullable α) :=
  match c.slots.getLast? with
  | some s => .ok s
  | none => .error .emptyColumn

def map (f : Nullable α → Nullable β) (c : Column α) : Column β := ⟨c.slots.map f⟩

def mapM {m : Type → Type} [Monad m] (f : Nullable α → m (Nullable β)) (c : Column α) :
    m (Column β) :=
  mk <$> c.slots.mapM f

def present (c : Column α) : List α := c.slots.filterMap Nullable.toOption

def equalTo (eq : α → α → Bool) (c d : Column α) : Bool :=
  c.length == d.length && (c.slots.zip d.slots).all fun (x, y) => x.equal eq y

def display (text : α → String) (c : Column α) : String :=
  String.join (c.slots.map fun s => s.display text ++ "\n")

@[simp] theorem length_nulls (n : Nat) : (nulls n : Column α).length = n := by
  simp [nulls, length]

@[simp] theorem slot_nulls (n i : Nat) : (nulls n : Column α).slot i = .null := by
  simp only [slot, nulls, List.getElem?_replicate]
  split <;> rfl

theorem slot_of_length_le {c : Column α} {n : Nat} (h : c.length ≤ n) : c.slot n = .null := by
  simp [slot, List.getElem?_eq_none h]

theorem lt_length_of_slot_ne_null {c : Column α} {n : Nat} (h : c.slot n ≠ .null) : n < c.length :=
  Nat.lt_of_not_le fun hn => h (slot_of_length_le hn)

@[simp] theorem length_map (f : Nullable α → Nullable β) (c : Column α) :
    (c.map f).length = c.length := by simp [map, length]

theorem slot_map {f : Nullable α → Nullable β} {c : Column α} {n : Nat} (h : n < c.length) :
    (c.map f).slot n = f (c.slot n) := by
  have hn : n < c.slots.length := h
  simp [slot, map, hn]

/-- Columns of one length that agree at every position are the same. -/
theorem ext_slot {c d : Column α} (hl : c.length = d.length)
    (hs : ∀ n < c.length, c.slot n = d.slot n) : c = d := by
  cases c with | mk xs =>
  cases d with | mk ys =>
  congr 1
  apply List.ext_getElem hl
  intro n hx hy
  simpa [slot, hx, hy] using hs n hx

end Column
end ColumnAlgebra
