import ColumnAlgebra.Proofs.FixedInt.Exact
import ColumnAlgebra.Proofs.Spread

/-!
# Exact arithmetic of integer columns

An operator between two columns of integers looks at the positions up to the longer length. A position
fails if both slots are present and the operator has no result on their values. Main statement: the
first position that fails gives the fault; without one, every slot is the exact result, empty where an
operand is.
-/

namespace ColumnAlgebra
set_option autoImplicit false

variable {k : IntKind}

namespace BinaryOperator

def slotFailure? (op : BinaryOperator) : Nullable (FixedInt k) → Nullable (FixedInt k) → Option String
  | .value x, .value y => op.failure? k x.toInt y.toInt
  | _, _ => none

def failureAt? (op : BinaryOperator) (a b : Column (FixedInt k)) (i : Nat) : Option String :=
  op.slotFailure? (a.slot i) (b.slot i)

/-- The exact result on two slots, empty where one of them is. -/
def onSlots (op : BinaryOperator) (s t : Nullable (FixedInt k)) : Nullable Int :=
  Nullable.zipWith op.onInt (s.map FixedInt.toInt) (t.map FixedInt.toInt)

variable {op : BinaryOperator} {s t u : Nullable (FixedInt k)}

theorem slotFailure?_of_ok (h : s.zipWithM (FixedInt.binary op) t = .ok u) :
    op.slotFailure? s t = none ∧ u.map FixedInt.toInt = op.onSlots s t := by
  cases s with
  | null =>
    cases h
    exact ⟨rfl, rfl⟩
  | value x =>
    cases t with
    | null =>
      cases h
      exact ⟨rfl, rfl⟩
    | value y =>
      have hxy := FixedInt.binary_isExact op x y
      simp only [Nullable.zipWithM] at h
      cases hz : FixedInt.binary op x y with
      | error fault => simp [hz, Functor.map, Except.map] at h
      | ok z =>
        rw [hz] at hxy h
        cases h
        exact ⟨hxy.1, congrArg Nullable.value hxy.2⟩

theorem slotFailure?_of_error {fault : Fault}
    (h : s.zipWithM (FixedInt.binary op) t = .error fault) :
    op.slotFailure? s t = some fault.message := by
  cases s with
  | null => cases h
  | value x =>
    cases t with
    | null => cases h
    | value y =>
      have hxy := FixedInt.binary_isExact op x y
      simp only [Nullable.zipWithM] at h
      cases hz : FixedInt.binary op x y with
      | error fault =>
        rw [hz] at hxy h
        cases h
        exact hxy
      | ok z => simp [hz, Functor.map, Except.map] at h

end BinaryOperator

open BinaryOperator in
theorem zipWithM_exact (op : BinaryOperator) (a b : Column (FixedInt k)) :
    (∃ c, a.zipWithM (Nullable.zipWithM (FixedInt.binary op)) b.broadcast = .ok c ∧
      (∀ i, op.failureAt? a b i = none) ∧ c.length = max a.length b.length ∧
      ∀ i, (c.slot i).map FixedInt.toInt = op.onSlots (a.slot i) (b.slot i)) ∨
    (∃ fault, a.zipWithM (Nullable.zipWithM (FixedInt.binary op)) b.broadcast = .error fault ∧
      ∃ i, op.failureAt? a b i = some fault.message ∧ ∀ j < i, op.failureAt? a b j = none) := by
  rw [Column.zipWithM_eq_tabulate, Column.zipLength_column]
  rcases Column.tabulate_cases (max a.length b.length) fun i =>
      (a.slot i).zipWithM (FixedInt.binary op) (b.broadcast.slot i) with
    ⟨c, hc, hl, hf⟩ | ⟨fault, he, i, _, hi, hfirst⟩
  · have hslots (i : Nat) : op.failureAt? a b i = none ∧
        (c.slot i).map FixedInt.toInt = op.onSlots (a.slot i) (b.slot i) := by
      by_cases hi : i < max a.length b.length
      · exact slotFailure?_of_ok (hf i hi)
      · have ha : a.slot i = .null := Column.slot_of_length_le (by omega)
        have hb : b.slot i = .null := Column.slot_of_length_le (by omega)
        have hc : c.slot i = .null := Column.slot_of_length_le (by omega)
        rw [failureAt?, ha, hb, hc]
        exact ⟨rfl, rfl⟩
    exact Or.inl ⟨c, hc, fun i => (hslots i).1, hl, fun i => (hslots i).2⟩
  · refine Or.inr ⟨fault, he, i, slotFailure?_of_error hi, ?_⟩
    intro j hj
    obtain ⟨s, hs⟩ := hfirst j hj
    exact (slotFailure?_of_ok hs).1

def integers (c : Column (FixedInt k)) : Answer (.int k) := .elements (.column c)

theorem run?_integers (op : BinaryOperator) (a b : Column (FixedInt k)) (p q : Passing) :
    ∃ x, Operation.run? (t := .int k) (.binary op (a.term p) (b.term q)) = some x ∧
      x.result = (a.zipWithM (Nullable.zipWithM (FixedInt.binary op)) b.broadcast).map integers := by
  have hmap (y : Except Fault (Column (FixedInt k))) (log : List LogRecord) :
      (Answer.elements (t := .int k) <$> Computed.column <$> Outcome.mk y log).result =
        y.map integers := by
    cases y <;> rfl
  exact ⟨_, run?_binary rfl _ _, hmap _ _⟩

/-- Between two columns of integers an operator has a fault exactly if a position fails, and then with
the message of the first such position. Otherwise it gives a column of the longer length whose slots
are the exact results, empty where one of the operands is. -/
theorem run?_exact (op : BinaryOperator) (a b : Column (FixedInt k)) (p q : Passing) :
    ∃ x, Operation.run? (t := .int k) (.binary op (a.term p) (b.term q)) = some x ∧
      ((∃ fault, x.result = .error fault) ↔ ∃ i message, op.failureAt? a b i = some message) ∧
      (∀ fault, x.result = .error fault →
        ∃ i, op.failureAt? a b i = some fault.message ∧ ∀ j < i, op.failureAt? a b j = none) ∧
      (∀ answer, x.result = .ok answer →
        ∃ c : Column (FixedInt k), answer = .elements (.column c) ∧ c.length = max a.length b.length ∧
          ∀ i, (c.slot i).map FixedInt.toInt = op.onSlots (a.slot i) (b.slot i)) := by
  obtain ⟨x, hx, hr⟩ := run?_integers op a b p q
  refine ⟨x, hx, ?_⟩
  rcases zipWithM_exact op a b with ⟨c, hc, hnone, hl, hs⟩ | ⟨fault, he, i, hi, hfirst⟩
  · rw [hc] at hr
    rw [hr]
    refine ⟨⟨?_, ?_⟩, ?_, ?_⟩
    · rintro ⟨fault, h⟩
      cases h
    · rintro ⟨i, message, h⟩
      rw [hnone i] at h
      cases h
    · intro fault h
      cases h
    · intro answer h
      cases h
      exact ⟨c, rfl, hl, hs⟩
  · rw [he] at hr
    rw [hr]
    refine ⟨⟨fun _ => ⟨i, fault.message, hi⟩, fun _ => ⟨fault, rfl⟩⟩, ?_, ?_⟩
    · intro fault' h
      cases h
      exact ⟨i, hi, hfirst⟩
    · intro answer h
      cases h

/-- The first two positions have a null; the third is the first to fail. -/
theorem run?_exact_third :
    let a : Column (FixedInt ⟨true, .w8⟩) := ⟨[.value (.wrap _ 1), .null, .value (.wrap _ (-128)),
      .value (.wrap _ 5)]⟩
    let b : Column (FixedInt ⟨true, .w8⟩) := ⟨[.null, .value (.wrap _ 0), .value (.wrap _ (-1)),
      .value (.wrap _ 0), .value (.wrap _ 0)]⟩
    ∃ x, Operation.run? (t := .int ⟨true, .w8⟩) (.binary .div (a.term .lent) (b.term .given)) = some x ∧
      ∃ fault, x.result = .error fault ∧
        ∃ i, BinaryOperator.div.failureAt? a b i = some fault.message ∧
          ∀ j < i, BinaryOperator.div.failureAt? a b j = none := by
  intro a b
  have hi : BinaryOperator.div.failureAt? a b 2 = some "attempt to divide with overflow" := rfl
  obtain ⟨x, hx, hfails, hfirst, _⟩ := run?_exact .div a b .lent .given
  obtain ⟨fault, hf⟩ := hfails.mpr ⟨2, _, hi⟩
  exact ⟨x, hx, fault, hf, hfirst fault hf⟩

end ColumnAlgebra
