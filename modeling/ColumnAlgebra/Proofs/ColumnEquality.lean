import ColumnAlgebra.Proofs.ElementEquality
import ColumnAlgebra.Proofs.Spread

/-!
# Equality of columns, slot by slot and as wholes

Compared slot by slot, two columns give a truth value at every position up to the longer length, and
the padding of the shorter one counts as empty slots. So columns of different lengths can be equal at
every position; as wholes they are equal only if the lengths are. Main statement: both are equivalence
relations wherever the equality of the values is one, the lengths are all that lies between them, and
single slots are compared in the same way on every route.
-/

namespace ColumnAlgebra
set_option autoImplicit false

open Nullable (Matches)

namespace Column

variable {α : Type} {eq : α → α → Bool}

/-- The truth of `f` on the slots at each position. -/
def compareSlots (f : Nullable α → Nullable α → Bool) (c : Column α) (b : Broadcast α) :
    Column Bool :=
  c.zipWith (fun x y => .value (f x y)) b

def AllTrue (c : Column Bool) : Prop := ∀ s ∈ c.slots, s = .value true

/-- The columns agree as far as both have slots, and the longer one goes on with empty slots. -/
structure AgreeThenEmpty (eq : α → α → Bool) (a b : Column α) : Prop where
  common : ∀ i < min a.length b.length, Matches eq (a.slot i) (b.slot i)
  rest : ∀ i ≥ min a.length b.length, a.slot i = .null ∧ b.slot i = .null

variable {a b : Column α}

theorem length_compareSlots (f : Nullable α → Nullable α → Bool) (a b : Column α) :
    (a.compareSlots f b.broadcast).length = max a.length b.length := length_zipWith _ _ _

theorem slot_compareSlots (f : Nullable α → Nullable α → Bool) {a b : Column α} {i : Nat}
    (h : i < max a.length b.length) :
    (a.compareSlots f b.broadcast).slot i = .value (f (a.slot i) (b.slot i)) := slot_zipWith h

theorem slot_compareSlots_eq_true_iff {f : Nullable α → Nullable α → Bool} {a b : Column α} {i : Nat} :
    (a.compareSlots f b.broadcast).slot i = .value true ↔
      i < max a.length b.length ∧ f (a.slot i) (b.slot i) = true := by
  by_cases hi : i < max a.length b.length
  · rw [slot_compareSlots f hi, Nullable.value.injEq]
    exact (and_iff_right hi).symm
  · have hnull : (a.compareSlots f b.broadcast).slot i = .null := by
      apply slot_of_length_le
      rw [length_compareSlots]
      exact Nat.le_of_not_lt hi
    rw [hnull]
    exact ⟨nofun, fun h => absurd h.1 hi⟩

theorem allTrue_iff {c : Column Bool} : c.AllTrue ↔ ∀ i < c.length, c.slot i = .value true := by
  unfold AllTrue
  rw [slots_eq_map_range, List.forall_mem_map]
  simp only [List.mem_range]

theorem matches_of_length_le {i : Nat} (h : max a.length b.length ≤ i) :
    Matches eq (a.slot i) (b.slot i) :=
  Or.inl ⟨slot_of_length_le (by omega), slot_of_length_le (by omega)⟩

theorem allTrue_equal_iff :
    (a.compareSlots (Nullable.equal eq) b.broadcast).AllTrue ↔ ∀ i, Matches eq (a.slot i) (b.slot i) := by
  rw [allTrue_iff, length_compareSlots]
  constructor
  · intro h i
    by_cases hi : i < max a.length b.length
    · have hs := h i hi
      rw [slot_compareSlots _ hi] at hs
      exact Nullable.equal_eq_true_iff.mp (Nullable.value.inj hs)
    · exact matches_of_length_le (Nat.le_of_not_lt hi)
  · intro h i hi
    rw [slot_compareSlots _ hi, Nullable.equal_eq_true_iff.mpr (h i)]

theorem agreeThenEmpty_iff : AgreeThenEmpty eq a b ↔ ∀ i, Matches eq (a.slot i) (b.slot i) := by
  constructor
  · intro h i
    by_cases hi : i < min a.length b.length
    · exact h.common i hi
    · exact Or.inl (h.rest i (Nat.le_of_not_lt hi))
  · intro h
    refine ⟨fun i _ => h i, fun i hi => ?_⟩
    have hm := h i
    by_cases ha : a.length ≤ i
    · have hnull : a.slot i = .null := slot_of_length_le ha
      rw [hnull] at hm
      exact ⟨hnull, Nullable.matches_null_left.mp hm⟩
    · have hnull : b.slot i = .null := slot_of_length_le (by omega)
      rw [hnull] at hm
      exact ⟨Nullable.matches_null_right.mp hm, hnull⟩

theorem equalTo_eq_true_iff : a.equalTo eq b = true ↔
    a.length = b.length ∧ ∀ i, Matches eq (a.slot i) (b.slot i) := by
  unfold equalTo
  rw [Bool.and_eq_true, beq_iff_eq, List.all_eq_true]
  refine and_congr_right fun hl => ?_
  have hzip : a.slots.zip b.slots = (List.range a.length).map fun i => (a.slot i, b.slot i) := by
    rw [slots_eq_map_range a, slots_eq_map_range b, ← hl, List.zip_map']
  rw [hzip, List.forall_mem_map]
  simp only [List.mem_range, Nullable.equal_eq_true_iff]
  constructor
  · intro h i
    by_cases hi : i < a.length
    · exact h i hi
    · exact matches_of_length_le (by omega)
  · intro h i _
    exact h i

/-- Where the equality of the values is the identity, so is that of columns as wholes. -/
theorem equalTo_eq_true_iff_eq (h : ∀ x y, eq x y = true ↔ x = y) :
    a.equalTo eq b = true ↔ a = b := by
  rw [equalTo_eq_true_iff]
  constructor
  · rintro ⟨hl, hs⟩
    apply ext_slot hl
    intro i _
    exact (Nullable.matches_iff_eq h).mp (hs i)
  · rintro rfl
    exact ⟨rfl, fun i => (Nullable.matches_iff_eq h).mpr rfl⟩

theorem compareSlots_comm {f : Nullable α → Nullable α → Bool} (h : ∀ x y, f x y = f y x)
    (a b : Column α) : a.compareSlots f b.broadcast = b.compareSlots f a.broadcast := by
  have hl : (a.compareSlots f b.broadcast).length = (b.compareSlots f a.broadcast).length := by
    rw [length_compareSlots, length_compareSlots, Nat.max_comm]
  apply ext_slot hl
  intro i hi
  have hb := hi
  rw [hl] at hb
  rw [length_compareSlots] at hi hb
  rw [slot_compareSlots f hi, slot_compareSlots f hb, h]

section Equivalences

variable (h : Equivalence fun x y => eq x y = true)
include h

theorem equivalence_slots : Equivalence fun a b : Column α => ∀ i, Matches eq (a.slot i) (b.slot i) where
  refl := fun a i => (Nullable.equivalence_matches h).refl (a.slot i)
  symm := fun hab i => (Nullable.equivalence_matches h).symm (hab i)
  trans := fun hab hbc i => (Nullable.equivalence_matches h).trans (hab i) (hbc i)

theorem equivalence_allTrue :
    Equivalence fun a b : Column α => (a.compareSlots (Nullable.equal eq) b.broadcast).AllTrue := by
  simp only [allTrue_equal_iff]
  exact equivalence_slots h

theorem equivalence_equalTo : Equivalence fun a b : Column α => a.equalTo eq b = true := by
  have hs := equivalence_slots h
  simp only [equalTo_eq_true_iff]
  exact
    { refl := fun a => ⟨rfl, hs.refl a⟩
      symm := fun hab => ⟨hab.1.symm, hs.symm hab.2⟩
      trans := fun hab hbc => ⟨hab.1.trans hbc.1, hs.trans hab.2 hbc.2⟩ }

end Equivalences

end Column

open Column

variable {t : ElementType}

theorem run?_equal (c : Column t.Value) (p : Passing) (r : Term t.Value) :
    Operation.run? (.method .equal (c.term p) r) =
      some ⟨.ok (.truths (.column (c.compareSlots (Nullable.equal t.beq) r.broadcast))),
        c.paddingLog r.broadcast⟩ :=
  congrArg some (map_meet (Answer.truths <| .column ·) _ c r.broadcast)

theorem run?_notEqual (c : Column t.Value) (p : Passing) (r : Term t.Value) :
    Operation.run? (.method .notEqual (c.term p) r) =
      some ⟨.ok (.truths (.column (c.compareSlots (Nullable.notEqual t.beq) r.broadcast))),
        c.paddingLog r.broadcast⟩ :=
  congrArg some (map_meet (Answer.truths <| .column ·) _ c r.broadcast)

/-- Between two columns, equality as a method gives a column of the longer length without an empty slot,
true where both slots are empty or have equal values, and inequality gives its negation. It is true at
every position exactly if the columns agree and the longer one goes on with empty slots; equality as a
whole asks for equal lengths besides. The order of the operands does not matter. Both are equivalence
relations if the equality of the values is one, as it is for every type but floating point numbers.
Single slots are compared as wholes and by the methods in the same way. -/
theorem equality_coherence (t : ElementType) :
    (∀ (a b : Column t.Value) p q,
      let e := a.compareSlots (Nullable.equal t.beq) b.broadcast
      let d := a.compareSlots (Nullable.notEqual t.beq) b.broadcast
      let same := a.equalTo t.beq b
      Operation.run? (.method .equal (a.term p) (b.term q)) =
        some ⟨.ok (.truths (.column e)), a.paddingLog b.broadcast⟩ ∧
      Operation.run? (.method .notEqual (a.term p) (b.term q)) =
        some ⟨.ok (.truths (.column d)), a.paddingLog b.broadcast⟩ ∧
      Operation.run? (.equality (a.term p) (b.term q)) = some (.ok (.equality same (!same))) ∧
      e.length = max a.length b.length ∧ d.length = max a.length b.length ∧
      (∀ i < max a.length b.length, ∃ x : Bool, e.slot i = .value x ∧ d.slot i = .value (!x) ∧
        (x = true ↔ Matches t.beq (a.slot i) (b.slot i))) ∧
      (e.AllTrue ↔ ∀ i, Matches t.beq (a.slot i) (b.slot i)) ∧
      (e.AllTrue ↔ AgreeThenEmpty t.beq a b) ∧
      (same = true ↔ e.AllTrue ∧ a.length = b.length) ∧
      e = b.compareSlots (Nullable.equal t.beq) a.broadcast) ∧
    ((Equivalence fun x y => t.beq x y = true) ↔ ∀ k, t ≠ .float k) ∧
    ((Equivalence fun x y => t.beq x y = true) →
      (Equivalence fun a b : Column t.Value =>
        (a.compareSlots (Nullable.equal t.beq) b.broadcast).AllTrue) ∧
      Equivalence fun a b : Column t.Value => a.equalTo t.beq b = true) ∧
    ∀ (l r : Term t.Value) u v, l.slot? = some u → r.slot? = some v →
      (∀ o, l = .operand o →
        Operation.run? (.method .equal l r) = some (.ok (.truth (u.equal t.beq v))) ∧
        Operation.run? (.method .notEqual l r) = some (.ok (.truth (!u.equal t.beq v)))) ∧
      (l.Comparable r → Operation.run? (.equality l r) =
        some (.ok (.equality (u.equal t.beq v) (!u.equal t.beq v)))) := by
  refine ⟨fun a b p q => ?_, t.equivalence_beq_iff,
    fun h => ⟨equivalence_allTrue h, equivalence_equalTo h⟩, fun l r u v hl hr => ?_⟩
  · refine ⟨run?_equal a p (b.term q), run?_notEqual a p (b.term q), rfl,
      length_compareSlots _ a b, length_compareSlots _ a b, fun i hi => ?_, allTrue_equal_iff, ?_, ?_,
      compareSlots_comm (Nullable.equal_comm t.beq_comm) a b⟩
    · exact ⟨_, slot_compareSlots _ hi, slot_compareSlots _ hi, Nullable.equal_eq_true_iff⟩
    · rw [allTrue_equal_iff, agreeThenEmpty_iff]
    · rw [allTrue_equal_iff, equalTo_eq_true_iff]
      exact and_comm
  · refine ⟨?_, fun h => run?_equality_of_comparable h hl hr⟩
    rintro o rfl
    exact run?_equal_single hl hr

end ColumnAlgebra
