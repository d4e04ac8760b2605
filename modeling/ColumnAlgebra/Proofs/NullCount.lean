import ColumnAlgebra.Proofs.ColumnDivision
import ColumnAlgebra.Proofs.Masking
import Mathlib.Data.Nat.Count

/-!
# How many slots are empty

The empty slots of a column are counted by position, and every position that it is padded with counts one
more. A result that is empty where an operand is has as many as both operands together after padding, less
the positions that are empty in both. Main statement: so it is for every operation that propagates
emptiness; checked division adds the pairs that it cannot divide, a single slot to one side adds none or
empties all, and equality has none.
-/

namespace ColumnAlgebra
set_option autoImplicit false

section Counting

variable {p q : Nat → Prop} [DecidablePred p] [DecidablePred q] {n : Nat}

theorem count_or_add_count_and (p q : Nat → Prop) [DecidablePred p] [DecidablePred q] (n : Nat) :
    Nat.count (fun i => p i ∨ q i) n + Nat.count (fun i => p i ∧ q i) n =
      Nat.count p n + Nat.count q n := by
  induction n with
  | zero => simp
  | succ n ih =>
    simp only [Nat.count_succ]
    by_cases hp : p n
    · by_cases hq : q n
      · simp only [hp, hq, or_self, and_self, if_true]
        omega
      · simp only [hp, hq, or_false, and_false, if_true, if_false]
        omega
    · simp only [hp, false_or, false_and, if_false]
      omega

theorem count_or_of_disjoint (disjoint : ∀ i, p i → ¬q i) :
    Nat.count (fun i => p i ∨ q i) n = Nat.count p n + Nat.count q n := by
  have hand : Nat.count (fun i => p i ∧ q i) n = 0 :=
    Nat.count_iff_forall_not.mpr fun i _ h => disjoint i h.1 h.2
  rw [← count_or_add_count_and p q n, hand, Nat.add_zero]

theorem count_congr (h : ∀ i < n, p i ↔ q i) : Nat.count p n = Nat.count q n :=
  Nat.le_antisymm (Nat.count_mono_left fun i hi => (h i hi).mp)
    (Nat.count_mono_left fun i hi => (h i hi).mpr)

end Counting

theorem Nullable.isNull_eq_true_iff {α : Type} {s : Nullable α} : s.isNull = true ↔ s = .null := by
  cases s <;> simp [isNull]

namespace Column

variable {α β γ δ : Type}

theorem nullCount_eq_count (c : Column α) :
    c.nullCount = Nat.count (fun i => (c.slot i).isNull) c.length := by
  rw [nullCount, slots_eq_map_range, List.countP_map, Nat.count]
  simp [Function.comp_def]

/-- Every position of the padding counts one more. -/
theorem count_isNull (c : Column α) {n : Nat} (h : c.length ≤ n) :
    Nat.count (fun i => (c.slot i).isNull) n = c.nullCount + (n - c.length) := by
  induction n, h using Nat.le_induction with
  | base => rw [nullCount_eq_count, Nat.sub_self, Nat.add_zero]
  | succ n h ih =>
    have hnull : (c.slot n).isNull = true := Nullable.isNull_eq_true_iff.mpr (slot_of_length_le h)
    rw [Nat.count_succ, ih, if_pos hnull]
    omega

/-- The number of positions up to the longer length at which both columns are empty. -/
def bothNull (a : Column α) (b : Column β) : Nat :=
  Nat.count (fun i => (a.slot i).isNull ∧ (b.slot i).isNull) (max a.length b.length)

theorem count_eitherNull (a : Column α) (b : Column β) :
    Nat.count (fun i => (a.slot i).isNull ∨ (b.slot i).isNull) (max a.length b.length) + a.bothNull b =
      a.nullCount + b.nullCount + ((a.length : Int) - b.length).natAbs := by
  rw [bothNull, count_or_add_count_and, count_isNull a (Nat.le_max_left _ _),
    count_isNull b (Nat.le_max_right _ _)]
  omega

/-- The second position, and the third one, where the shorter column is padded. -/
example : (⟨[.value 1, .null, .null]⟩ : Column Nat).bothNull (⟨[.null, .null]⟩ : Column Nat) = 2 := by
  decide

/-- A column that is empty where another one is, and at the positions that fail. -/
theorem nullCount_add_failing {d : Column γ} {m : Column δ} {fails : Nat → Prop}
    [DecidablePred fails] (hl : d.length = m.length)
    (hs : ∀ i, d.slot i = .null ↔ m.slot i = .null ∨ fails i)
    (present : ∀ i, m.slot i = .null → ¬fails i) :
    d.nullCount = m.nullCount + Nat.count fails m.length := by
  rw [nullCount_eq_count, hl, nullCount_eq_count, ← count_or_of_disjoint]
  · refine count_congr fun i _ => ?_
    rw [Nullable.isNull_eq_true_iff, Nullable.isNull_eq_true_iff, hs]
  · intro i hi
    exact present i (Nullable.isNull_eq_true_iff.mp hi)

namespace MaskedBy

variable {d : Column γ} {a b : Column α} {v : Nullable α}

theorem swap (h : d.MaskedBy [a, b]) : d.MaskedBy [b, a] := by
  obtain ⟨hl, hs⟩ := maskedBy_pair_iff.mp h
  exact maskedBy_pair_iff.mpr ⟨hl.trans (Nat.max_comm _ _), fun i => (hs i).trans or_comm⟩

theorem nullCount_single (h : d.MaskedBy [a]) : d.nullCount = a.nullCount := by
  obtain ⟨hl, hs⟩ := maskedBy_single_iff.mp h
  rw [nullCount_eq_count, nullCount_eq_count, hl]
  refine count_congr fun i _ => ?_
  rw [Nullable.isNull_eq_true_iff, Nullable.isNull_eq_true_iff, hs]

theorem nullCount_pair (h : d.MaskedBy [a, b]) : d.nullCount + a.bothNull b =
    a.nullCount + b.nullCount + ((a.length : Int) - b.length).natAbs := by
  obtain ⟨hl, hs⟩ := maskedBy_pair_iff.mp h
  rw [nullCount_eq_count, hl, ← count_eitherNull]
  refine congrArg (· + a.bothNull b) (count_congr fun i _ => ?_)
  rw [Nullable.isNull_eq_true_iff, Nullable.isNull_eq_true_iff, Nullable.isNull_eq_true_iff, hs]

/-- Masked by the copies of one slot, which are there at every position or at none. -/
theorem counts_filled (h : d.MaskedBy [a, filled v a.length]) :
    d.length = a.length ∧ d.nullCount = if v.isNull then a.length else a.nullCount := by
  obtain ⟨hl, hs⟩ := maskedBy_pair_iff.mp h
  rw [length_filled, Nat.max_self] at hl
  refine ⟨hl, ?_⟩
  cases v with
  | null =>
    have hall : d.nullCount = d.length := by
      rw [nullCount_eq_count, Nat.count_iff_forall]
      intro i hi
      rw [Nullable.isNull_eq_true_iff, hs]
      exact Or.inr (slot_filled .null (by omega))
    rw [hall, hl]
    rfl
  | value x =>
    have ha : d.MaskedBy [a] := by
      refine maskedBy_single_iff.mpr ⟨hl, fun i => ?_⟩
      rw [hs, or_iff_left_iff_imp]
      intro hfilled
      by_cases hi : i < a.length
      · rw [slot_filled _ hi] at hfilled
        cases hfilled
      · exact slot_of_length_le (Nat.le_of_not_lt hi)
    rw [ha.nullCount_single]
    rfl

end MaskedBy

section Equality

variable {f g : Nullable α → Nullable α → Bool} {a b : Column α}

theorem nullCount_compareSlots : (a.compareSlots f b.broadcast).nullCount = 0 := by
  rw [nullCount_eq_count, Nat.count_iff_forall_not]
  intro i hi
  rw [length_compareSlots] at hi
  rw [slot_compareSlots f hi]
  exact nofun

def trueCount (c : Column Bool) : Nat := c.slots.count (.value true)

theorem trueCount_compareSlots : (a.compareSlots f b.broadcast).trueCount =
    (List.range (max a.length b.length)).countP fun i => f (a.slot i) (b.slot i) := by
  have hslots : (a.compareSlots f b.broadcast).slots =
      (List.range (max a.length b.length)).map fun i => .value (f (a.slot i) (b.slot i)) := rfl
  rw [trueCount, hslots, List.count, List.countP_map]
  refine congrArg (List.countP · _) (funext fun i => ?_)
  rw [Function.comp_apply]
  cases f (a.slot i) (b.slot i) <;> rfl

theorem trueCount_add_trueCount (h : ∀ s r, g s r = !f s r) :
    (a.compareSlots f b.broadcast).trueCount + (a.compareSlots g b.broadcast).trueCount =
      max a.length b.length := by
  have hsplit := List.length_eq_countP_add_countP (fun i => f (a.slot i) (b.slot i))
    (l := List.range (max a.length b.length))
  rw [List.length_range] at hsplit
  rw [trueCount_compareSlots, trueCount_compareSlots]
  simp only [h]
  simpa using hsplit.symm

end Equality

end Column

section Division

variable {k : IntKind}

/-- Both slots have values, which the checked operations can not divide. -/
def divisionFails : Nullable (FixedInt k) → Nullable (FixedInt k) → Bool
  | .value x, .value y => decide (FixedInt.Indivisible x y)
  | _, _ => false

theorem undivided_iff {s r : Nullable (FixedInt k)} :
    Undivided s r ↔ (s = .null ∨ r = .null) ∨ divisionFails s r := by
  cases s with
  | null => simp [Undivided]
  | value x =>
    cases r with
    | null => simp [Undivided]
    | value y => simp [undivided_value, divisionFails]

theorem not_divisionFails {s r : Nullable (FixedInt k)} (h : s = .null ∨ r = .null) :
    divisionFails s r = false := by
  rcases h with rfl | rfl
  · rfl
  · cases s <;> rfl

/-- The checked operation adds its failures to the empty slots of the operands. -/
theorem nullCount_checked (op : CheckedOperator) (a b : Column (FixedInt k)) :
    ∃ m : Column Unit, m.MaskedBy [a, b] ∧
      (a.checked op b).nullCount = m.nullCount +
        Nat.count (fun i => divisionFails (a.slot i) (b.slot i)) (max a.length b.length) := by
  -- What an operation without failures would leave of the two columns.
  have hm := Column.maskedBy_propagate (fun _ _ => ()) a b
  refine ⟨_, hm, ?_⟩
  obtain ⟨hl, hs⟩ := Column.maskedBy_pair_iff.mp hm
  rw [← hl]
  apply Column.nullCount_add_failing
  · rw [Column.length_checked, hl]
  · intro i
    rw [Column.slot_checked, zipWithOption_checked_eq_null_iff, undivided_iff, hs]
  · intro i hi
    simp [not_divisionFails ((hs i).mp hi)]

end Division

namespace Answer

variable {t : ElementType}

/-- A column of that length with that number of empty slots. -/
inductive Counts : Answer t → Nat → Nat → Prop where
  | elements (c : Column t.Value) : Counts (.elements (.column c)) c.length c.nullCount
  | truths (c : Column Bool) : Counts (.truths (.column c)) c.length c.nullCount

/-- A column that is masked by the operands. -/
def MaskedBy (answer : Answer t) (operands : List (Column t.Value)) : Prop :=
  ∃ (γ : Type) (d : Column γ), d.MaskedBy operands ∧ answer.Counts d.length d.nullCount

variable {answer : Answer t} {a b : Column t.Value} {v : Nullable t.Value}

theorem MaskedBy.counts_single (h : answer.MaskedBy [a]) : answer.Counts a.length a.nullCount := by
  obtain ⟨γ, d, hd, hcounts⟩ := h
  rwa [(Column.maskedBy_single_iff.mp hd).1, hd.nullCount_single] at hcounts

theorem MaskedBy.counts_pair (h : answer.MaskedBy [a, b]) : ∃ n,
    answer.Counts (max a.length b.length) n ∧
    n + a.bothNull b = a.nullCount + b.nullCount + ((a.length : Int) - b.length).natAbs := by
  obtain ⟨γ, d, hd, hcounts⟩ := h
  rw [(Column.maskedBy_pair_iff.mp hd).1] at hcounts
  exact ⟨_, hcounts, hd.nullCount_pair⟩

theorem MaskedBy.counts_filled (h : answer.MaskedBy [a, .filled v a.length]) :
    answer.Counts a.length (if v.isNull then a.length else a.nullCount) := by
  obtain ⟨γ, d, hd, hcounts⟩ := h
  obtain ⟨hl, hn⟩ := hd.counts_filled
  rwa [hl, hn] at hcounts

theorem MaskedBy.swap (h : answer.MaskedBy [a, b]) : answer.MaskedBy [b, a] := by
  obtain ⟨γ, d, hd, hcounts⟩ := h
  exact ⟨γ, d, hd.swap, hcounts⟩

end Answer

/-- The operations of two terms that a type has and that propagate emptiness. -/
inductive Propagates {t : ElementType} :
    (Term t.Value → Term t.Value → Operation (Term t.Value)) → Prop where
  | binary {op : BinaryOperator} {f : t.Value → t.Value → Except Fault t.Value}
      (known : t.binary? op = some f) : Propagates (.binary op)
  | compare {c : Comparison} {f : t.Value → t.Value → Bool} (known : t.compare? c = some f) :
      Propagates (.method (.compare c))
  | connect {c : Connective} {f : t.Value → t.Value → Bool} (known : t.connect? c = some f) :
      Propagates (.method (.connect c))

section Operations

variable {t : ElementType} {two : Term t.Value → Term t.Value → Operation (Term t.Value)}
  {s : Term t.Value} {v : Nullable t.Value}

theorem run?_binary_masked {op : BinaryOperator} {f : t.Value → t.Value → Except Fault t.Value}
    (known : t.binary? op = some f) (a b : Column t.Value) (p q : Passing) :
    ∃ x, Operation.run? (.binary op (a.term p) (b.term q)) = some x ∧
      ∀ answer : Answer t, x.result = .ok answer → answer.MaskedBy [a, b] := by
  refine ⟨_, run?_binary_columns known a b p q, fun answer h => ?_⟩
  rw [Outcome.result_map, Column.combine] at h
  cases hz : a.zipWithM (Nullable.zipWithM f) b.broadcast with
  | error fault =>
    rw [hz] at h
    cases h
  | ok c =>
    rw [hz] at h
    cases h
    exact ⟨_, c, Column.maskedBy_of_zipWithM hz, .elements c⟩

theorem Propagates.run?_masked (h : Propagates two) (a b : Column t.Value) (p q : Passing) :
    ∃ x, Operation.run? (two (a.term p) (b.term q)) = some x ∧
      ∀ answer : Answer t, x.result = .ok answer → answer.MaskedBy [a, b] := by
  cases h with
  | binary known => exact run?_binary_masked known a b p q
  | compare known =>
    refine ⟨_, run?_compare known a b p q, ?_⟩
    rintro answer ⟨⟩
    exact ⟨_, _, Column.maskedBy_propagate _ a b, .truths _⟩
  | connect known =>
    refine ⟨_, run?_connect known a b p q, ?_⟩
    rintro answer ⟨⟩
    exact ⟨_, _, Column.maskedBy_propagate _ a b, .truths _⟩

theorem run?_method_filled (m : Method) (single : s.slot? = some v) (a : Column t.Value) (p : Passing) :
    Operation.run? (.method m (a.term p) s) =
      Operation.run? (.method m (a.term p) ((Column.filled v a.length).term p)) :=
  (run?_method_single single m a p).trans (run?_method_copies m a v p p).symm

theorem Propagates.run?_filled_right (h : Propagates two) (single : s.slot? = some v)
    (a : Column t.Value) (p : Passing) : Operation.run? (two (a.term p) s) =
      Operation.run? (two (a.term p) ((Column.filled v a.length).term p)) := by
  cases h with
  | binary known =>
    rw [run?_binary known, run?_binary known, combine?_column_left single, combine?_columns,
      Column.combine_filled]
  | compare | connect => exact run?_method_filled _ single a p

theorem run?_filled_left {op : BinaryOperator} {f : t.Value → t.Value → Except Fault t.Value}
    (known : t.binary? op = some f) (single : s.slot? = some v) (a : Column t.Value) (p : Passing) :
    Operation.run? (.binary op s (a.term p)) =
      Operation.run? (.binary op ((Column.filled v a.length).term p) (a.term p)) := by
  rw [run?_binary known, run?_binary known, combine?_column_right single, combine?_columns,
    Column.filled_combine]

end Operations

section Checked

variable {k : IntKind}

theorem counts_integers {d : Column (FixedInt k)} {l n : Nat} (hl : d.length = l) (hn : d.nullCount = n) :
    (integers d).Counts l n := by
  rw [← hl, ← hn]
  exact .elements (t := .int k) d

theorem run?_checked_counts (op : CheckedOperator) (a b : Column (FixedInt k)) (p q : Passing) :
    ∃ x n, Operation.run? (t := .int k) (.method (.checked op) (a.term p) (b.term q)) = some x ∧
      (∃ answer : Answer (.int k), x.result = .ok answer ∧
        answer.Counts (max a.length b.length) n) ∧
      n + a.bothNull b = a.nullCount + b.nullCount + ((a.length : Int) - b.length).natAbs +
        Nat.count (fun i => divisionFails (a.slot i) (b.slot i)) (max a.length b.length) := by
  obtain ⟨m, hm, hcount⟩ := nullCount_checked op a b
  refine ⟨_, _, run?_checked op a b p q,
    ⟨_, rfl, counts_integers (Column.length_checked op a b) hcount⟩, ?_⟩
  have hpair := hm.nullCount_pair
  omega

theorem run?_checked_counts_filled (op : CheckedOperator) {s : Term (FixedInt k)}
    {v : Nullable (FixedInt k)} (single : s.slot? = some v) (a : Column (FixedInt k)) (p : Passing) :
    ∃ x, Operation.run? (t := .int k) (.method (.checked op) (a.term p) s) = some x ∧
      ∃ answer : Answer (.int k), x.result = .ok answer ∧
        answer.Counts a.length ((if v.isNull then a.length else a.nullCount) +
          Nat.count (fun i => divisionFails (a.slot i) v) a.length) := by
  obtain ⟨m, hm, hcount⟩ := nullCount_checked op a (.filled v a.length)
  have hlength : max a.length (Column.filled v a.length).length = a.length := by simp
  have hfails : Nat.count (fun i => divisionFails (a.slot i) ((Column.filled v a.length).slot i))
      a.length = Nat.count (fun i => divisionFails (a.slot i) v) a.length :=
    count_congr fun i hi => by rw [Column.slot_filled v hi]
  rw [hlength, hfails, hm.counts_filled.2] at hcount
  have hl := Column.length_checked op a (.filled v a.length)
  rw [hlength] at hl
  refine ⟨_, (run?_method_filled (t := .int k) _ single a p).trans (run?_checked op a _ p p), _, rfl, ?_⟩
  exact counts_integers hl hcount

end Checked

section Unary

variable {t : ElementType}

theorem run?_unary_counts {op : UnaryOperator} {f : t.Value → Except Fault t.Value}
    (known : t.unary? op = some f) (a : Column t.Value) (p : Passing) :
    ∃ x, Operation.run? (.unary op (a.term p)) = some x ∧
      ∀ answer : Answer t, x.result = .ok answer → answer.Counts a.length a.nullCount := by
  refine ⟨_, run?_unary_column known a p, fun answer h => ?_⟩
  rw [Outcome.result_ofExcept] at h
  cases hz : a.mapM (Nullable.mapM f) with
  | error fault =>
    rw [hz] at h
    cases h
  | ok c =>
    rw [hz] at h
    cases h
    exact Answer.MaskedBy.counts_single ⟨_, c, Column.maskedBy_of_mapM hz, .elements c⟩

theorem run?_logicalNot_counts {truthy : t.Value → Bool} (known : t.truthy? = some truthy)
    (a : Column t.Value) (p : Passing) : ∃ x, Operation.run? (.logicalNot (a.term p)) = some x ∧
      ∃ answer : Answer t, x.result = .ok answer ∧ answer.Counts a.length a.nullCount := by
  refine ⟨_, run?_logicalNot_column known a p, ?_⟩
  rw [Column.mapM_ok]
  exact ⟨_, rfl, Answer.MaskedBy.counts_single ⟨_, _, Column.maskedBy_map _ a, .truths _⟩⟩

end Unary

/-- The empty slots of a result. Between two columns, an operation that propagates emptiness makes as many
as the operands have together, one more for each position of padding, less those in the same place on both
sides; with a single slot on one side, on either side of an operator, it makes those of the column, or
empties it. Checked quotient and remainder of integers make one more for every pair that can not be
divided. Equality and inequality make none, and at every position one of them holds. A unary operator
keeps them. -/
theorem null_accounting :
    (∀ (t : ElementType) two, Propagates (t := t) two → ∀ (a b : Column t.Value) p q,
      ∃ x, Operation.run? (two (a.term p) (b.term q)) = some x ∧
        ∀ answer : Answer t, x.result = .ok answer → ∃ n, answer.Counts (max a.length b.length) n ∧
          n + a.bothNull b = a.nullCount + b.nullCount + ((a.length : Int) - b.length).natAbs) ∧
    (∀ (t : ElementType) two, Propagates (t := t) two → ∀ (a : Column t.Value) p s v,
      s.slot? = some v → ∃ x, Operation.run? (two (a.term p) s) = some x ∧
        ∀ answer : Answer t, x.result = .ok answer →
          answer.Counts a.length (if v.isNull then a.length else a.nullCount)) ∧
    (∀ (t : ElementType) op f, t.binary? op = some f → ∀ (a : Column t.Value) p s v,
      s.slot? = some v → ∃ x, Operation.run? (.binary op s (a.term p)) = some x ∧
        ∀ answer : Answer t, x.result = .ok answer →
          answer.Counts a.length (if v.isNull then a.length else a.nullCount)) ∧
    (∀ (k : IntKind) op (a b : Column (FixedInt k)) p q,
      ∃ x n, Operation.run? (t := .int k) (.method (.checked op) (a.term p) (b.term q)) = some x ∧
        (∃ answer : Answer (.int k), x.result = .ok answer ∧
          answer.Counts (max a.length b.length) n) ∧
        n + a.bothNull b = a.nullCount + b.nullCount + ((a.length : Int) - b.length).natAbs +
          Nat.count (fun i => divisionFails (a.slot i) (b.slot i)) (max a.length b.length)) ∧
    (∀ (k : IntKind) op (a : Column (FixedInt k)) p s v, s.slot? = some v →
      ∃ x, Operation.run? (t := .int k) (.method (.checked op) (a.term p) s) = some x ∧
        ∃ answer : Answer (.int k), x.result = .ok answer ∧
          answer.Counts a.length ((if v.isNull then a.length else a.nullCount) +
            Nat.count (fun i => divisionFails (a.slot i) v) a.length)) ∧
    (∀ (t : ElementType) (a b : Column t.Value) p q, ∃ e d : Column Bool,
      Operation.run? (.method .equal (a.term p) (b.term q)) =
        some ⟨.ok (.truths (.column e)), a.paddingLog b.broadcast⟩ ∧
      Operation.run? (.method .notEqual (a.term p) (b.term q)) =
        some ⟨.ok (.truths (.column d)), a.paddingLog b.broadcast⟩ ∧
      e.nullCount = 0 ∧ d.nullCount = 0 ∧ e.trueCount + d.trueCount = max a.length b.length) ∧
    (∀ (t : ElementType) op f, t.unary? op = some f → ∀ (a : Column t.Value) p,
      ∃ x, Operation.run? (.unary op (a.term p)) = some x ∧
        ∀ answer : Answer t, x.result = .ok answer → answer.Counts a.length a.nullCount) ∧
    (∀ (t : ElementType) truthy, t.truthy? = some truthy → ∀ (a : Column t.Value) p,
      ∃ x, Operation.run? (.logicalNot (a.term p)) = some x ∧
        ∃ answer : Answer t, x.result = .ok answer ∧ answer.Counts a.length a.nullCount) := by
  refine ⟨?_, ?_, ?_, ?_, ?_, ?_, ?_, ?_⟩
  · intro t two h a b p q
    obtain ⟨x, hx, hmasked⟩ := h.run?_masked a b p q
    exact ⟨x, hx, fun answer ha => (hmasked answer ha).counts_pair⟩
  · intro t two h a p s v single
    obtain ⟨x, hx, hmasked⟩ := h.run?_masked a (.filled v a.length) p p
    refine ⟨x, (h.run?_filled_right single a p).trans hx, fun answer ha => ?_⟩
    exact (hmasked answer ha).counts_filled
  · intro t op f known a p s v single
    obtain ⟨x, hx, hmasked⟩ := run?_binary_masked known (.filled v a.length) a p p
    refine ⟨x, (run?_filled_left known single a p).trans hx, fun answer ha => ?_⟩
    exact (hmasked answer ha).swap.counts_filled
  · intro k
    exact run?_checked_counts
  · intro k op a p s v single
    exact run?_checked_counts_filled op single a p
  · intro t a b p q
    exact ⟨_, _, run?_equal a p (b.term q), run?_notEqual a p (b.term q),
      Column.nullCount_compareSlots, Column.nullCount_compareSlots,
      Column.trueCount_add_trueCount fun _ _ => rfl⟩
  · intro t op f known
    exact run?_unary_counts known
  · intro t truthy known
    exact run?_logicalNot_counts known

end ColumnAlgebra
