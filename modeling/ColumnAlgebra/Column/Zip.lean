import ColumnAlgebra.Broadcast

/-!
# Combining columns slot by slot

A column meets the slots of its right operand position by position, up to the longer of the two
lengths, and a side past its end is empty there. Operands of unequal length are recorded once, before
any slot is looked at.
-/

namespace ColumnAlgebra.Column
set_option autoImplicit false

variable {α β γ : Type}

def zipLength (c : Column α) (b : Broadcast β) : Nat :=
  match b.slotCount with
  | some n => max c.length n
  | none => c.length

def paddingLog (c : Column α) (b : Broadcast β) : List LogRecord :=
  match b.slotCount with
  | some n => if n = c.length then [] else [.padding c.length n]
  | none => []

def zipWith (f : Nullable α → Nullable β → Nullable γ) (c : Column α) (b : Broadcast β) : Column γ :=
  ⟨(List.range (c.zipLength b)).map fun i => f (c.slot i) (b.slot i)⟩

/-- A function with effects meets the positions in increasing order. -/
def zipWithM {m : Type → Type} [Monad m] (f : Nullable α → Nullable β → m (Nullable γ))
    (c : Column α) (b : Broadcast β) : m (Column γ) :=
  mk <$> (List.range (c.zipLength b)).mapM fun i => f (c.slot i) (b.slot i)

/-- The first position at which `f` fails decides the failure. -/
def combine {ε : Type} (f : Nullable α → Nullable β → Except ε (Nullable γ)) (c : Column α)
    (b : Broadcast β) : Outcome ε (Column γ) :=
  ⟨c.zipWithM f b, c.paddingLog b⟩

def meet {ε : Type} (f : Nullable α → Nullable β → Nullable γ) (c : Column α) (b : Broadcast β) :
    Outcome ε (Column γ) :=
  ⟨.ok (c.zipWith f b), c.paddingLog b⟩

@[simp] theorem zipLength_column (c : Column α) (d : Column β) :
    c.zipLength d.broadcast = max c.length d.length := rfl

@[simp] theorem zipLength_nullable (c : Column α) (s : Nullable β) :
    c.zipLength s.broadcast = c.length := rfl

theorem length_le_zipLength (c : Column α) (b : Broadcast β) : c.length ≤ c.zipLength b := by
  unfold zipLength
  split <;> omega

@[simp] theorem paddingLog_nullable (c : Column α) (s : Nullable β) :
    c.paddingLog s.broadcast = [] := rfl

theorem paddingLog_of_length_eq {c : Column α} {d : Column β} (h : d.length = c.length) :
    c.paddingLog d.broadcast = [] := if_pos h

@[simp] theorem length_zipWith (f : Nullable α → Nullable β → Nullable γ) (c : Column α)
    (b : Broadcast β) : (c.zipWith f b).length = c.zipLength b := by
  simp [zipWith, length]

theorem slot_zipWith {f : Nullable α → Nullable β → Nullable γ} {c : Column α} {b : Broadcast β}
    {n : Nat} (h : n < c.zipLength b) : (c.zipWith f b).slot n = f (c.slot n) (b.slot n) := by
  simp [zipWith, slot, List.getElem?_range h]

/-- Between two columns also past the end, if nothing is made of two empty slots. -/
theorem slot_zipWith_of_null {f : Nullable α → Nullable β → Nullable γ} (h : f .null .null = .null)
    (c : Column α) (d : Column β) (n : Nat) :
    (c.zipWith f d.broadcast).slot n = f (c.slot n) (d.slot n) := by
  by_cases hn : n < max c.length d.length
  · exact slot_zipWith hn
  · have hz : (c.zipWith f d.broadcast).length ≤ n := by
      rw [length_zipWith, zipLength_column]
      exact Nat.le_of_not_lt hn
    rw [slot_of_length_le hz, slot_of_length_le (by omega), slot_of_length_le (by omega), h]

@[simp] theorem map_meet {δ ε : Type} (g : Column γ → δ) (f : Nullable α → Nullable β → Nullable γ)
    (c : Column α) (b : Broadcast β) :
    (g <$> c.meet f b : Outcome ε δ) = ⟨.ok (g (c.zipWith f b)), c.paddingLog b⟩ :=
  Outcome.map_mk_ok g _ _

end ColumnAlgebra.Column
