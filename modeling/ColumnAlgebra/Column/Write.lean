import ColumnAlgebra.Column.Basic
import ColumnAlgebra.Log

/-!
# Writing to columns

A write to a single slot is accepted below the length of the column; elsewhere it changes nothing and
is recorded. Writes to the whole column are recorded with the length before the write.
-/

namespace ColumnAlgebra.Column
set_option autoImplicit false

variable {α ε : Type}

def push (c : Column α) (s : Nullable α) : Column α := ⟨c.slots ++ [s]⟩

/-- The column after the write, and whether the write was accepted. -/
def write (c : Column α) (position : Option Nat) (s : Nullable α) : Outcome ε (Column α × Bool) :=
  match position.filter (· < c.length) with
  | some n => pure (⟨c.slots.set n s⟩, true)
  | none => do
    .record (.ignoredWrite position c.length)
    pure (c, false)

def set (c : Column α) (i : SlotIndex) (s : Nullable α) : Outcome ε (Column α × Bool) :=
  c.write i.position? s

def reset (c : Column α) (i : SlotIndex) : Outcome ε (Column α × Bool) :=
  c.write i.position? .null

def assign (c : Column α) (a : α) : Outcome ε (Column α) := do
  .record (.assigningValue c.length)
  pure ⟨List.replicate c.length (.value a)⟩

def assignNull (c : Column α) : Outcome ε (Column α) := do
  .record (.assigningNull c.length)
  pure (c.map fun _ => .null)

def clear (c : Column α) : Outcome ε (Column α) := do
  .record (.clearing c.length)
  pure empty

@[simp] theorem length_push (c : Column α) (s : Nullable α) :
    (c.push s).length = c.length + 1 := by simp [push, length]

theorem slot_push (c : Column α) (s : Nullable α) (n : Nat) :
    (c.push s).slot n = if n = c.length then s else c.slot n := by
  have hl : c.length = c.slots.length := rfl
  by_cases he : n = c.length
  · simp [push, slot, he, hl]
  · rw [if_neg he]
    by_cases hlt : n < c.length
    · rw [hl] at hlt
      simp [push, slot, List.getElem?_append_left hlt]
    · rw [slot_of_length_le (by rw [length_push]; omega), slot_of_length_le (by omega)]

theorem write_of_lt {c : Column α} {n : Nat} (h : n < c.length) (s : Nullable α) :
    (c.write (some n) s : Outcome ε _) = .ok (⟨c.slots.set n s⟩, true) := by
  simp [write, Option.filter, h, pure]

theorem write_of_le {c : Column α} {n : Nat} (h : c.length ≤ n) (s : Nullable α) :
    (c.write (some n) s : Outcome ε _) = ⟨.ok (c, false), [.ignoredWrite (some n) c.length]⟩ := by
  simp [write, Option.filter, Nat.not_lt.mpr h, pure, bind, Outcome.andThen, Outcome.record]

/-- A write to a position of the column, or one that changes nothing. -/
theorem write_cases (c : Column α) (position : Option Nat) (s : Nullable α) :
    (∃ n < c.length, position = some n ∧
      (c.write position s : Outcome ε _) = .ok (⟨c.slots.set n s⟩, true)) ∨
    ((∀ n, position = some n → c.length ≤ n) ∧
      (c.write position s : Outcome ε _) =
        ⟨.ok (c, false), [.ignoredWrite position c.length]⟩) := by
  cases position with
  | none => exact Or.inr ⟨by simp, rfl⟩
  | some n =>
    by_cases h : n < c.length
    · exact Or.inl ⟨n, h, rfl, write_of_lt h s⟩
    · have hle : c.length ≤ n := Nat.le_of_not_lt h
      exact Or.inr ⟨by simpa using hle, write_of_le hle s⟩

@[simp] theorem length_set_slots (c : Column α) (n : Nat) (s : Nullable α) :
    (⟨c.slots.set n s⟩ : Column α).length = c.length := by simp [length]

theorem slot_set_slots {c : Column α} {n : Nat} (h : n < c.length) (s : Nullable α) (i : Nat) :
    (⟨c.slots.set n s⟩ : Column α).slot i = if i = n then s else c.slot i := by
  have hn : n < c.slots.length := h
  by_cases hi : i = n
  · subst hi
    simp [slot, hn]
  · simp [slot, hi, List.getElem?_set_ne (Ne.symm hi)]

end ColumnAlgebra.Column
