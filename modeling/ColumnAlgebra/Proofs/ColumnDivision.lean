import ColumnAlgebra.Proofs.ColumnArithmetic
import ColumnAlgebra.Proofs.FixedInt.CheckedDivision

/-!
# Checked division of integer columns

Between two columns of integers a checked operation never has a fault: a slot is empty where an operand
is and where the operator would fail. Main statement: checked quotient and remainder are empty at the
same positions, elsewhere they make up the dividend again without a fault on the way, and the operators
of the same names have no fault exactly if the checked ones have emptied no slot of their own.
-/

namespace ColumnAlgebra
set_option autoImplicit false

variable {k : IntKind}

namespace Column

def checked (op : CheckedOperator) (a b : Column (FixedInt k)) : Column (FixedInt k) :=
  a.zipWith (Nullable.zipWithOption (FixedInt.checked op)) b.broadcast

@[simp] theorem length_checked (op : CheckedOperator) (a b : Column (FixedInt k)) :
    (a.checked op b).length = max a.length b.length := length_zipWith _ _ _

theorem slot_checked (op : CheckedOperator) (a b : Column (FixedInt k)) (i : Nat) :
    (a.checked op b).slot i =
      Nullable.zipWithOption (FixedInt.checked op) (a.slot i) (b.slot i) :=
  slot_zipWith_of_null rfl a b i

end Column

theorem run?_checked (op : CheckedOperator) (a b : Column (FixedInt k)) (p q : Passing) :
    Operation.run? (t := .int k) (.method (.checked op) (a.term p) (b.term q)) =
      some ⟨.ok (integers (a.checked op b)), a.paddingLog b.broadcast⟩ := by
  have hrun : Operation.run? (t := .int k) (.method (.checked op) (a.term p) (b.term q)) =
      some ((.elements <| .column ·) <$>
        a.meet (Nullable.zipWithOption (FixedInt.checked op)) b.broadcast) := rfl
  rw [hrun, Column.meet, Outcome.map_mk_ok]
  rfl

/-- A slot is empty, or the values can be neither divided nor have a remainder. -/
def Undivided (s t : Nullable (FixedInt k)) : Prop :=
  s = .null ∨ t = .null ∨ (∃ y, t = .value y ∧ y.toInt = 0) ∨
    (k.signed ∧ (∃ x, s = .value x ∧ x.toInt = k.minInt) ∧ ∃ y, t = .value y ∧ y.toInt = -1)

theorem undivided_value {x y : FixedInt k} :
    Undivided (.value x) (.value y) ↔ FixedInt.Indivisible x y := by
  simp [Undivided, FixedInt.Indivisible]

variable {s t u : Nullable (FixedInt k)}

theorem zipWithOption_checked_eq_null_iff (op : CheckedOperator) :
    s.zipWithOption (FixedInt.checked op) t = .null ↔ Undivided s t := by
  cases s with
  | null => simp [Nullable.zipWithOption, Undivided]
  | value x =>
    cases t with
    | null => simp [Nullable.zipWithOption, Undivided]
    | value y =>
      rw [undivided_value, ← FixedInt.checked_eq_none_iff op]
      cases h : FixedInt.checked op x y <;> simp [Nullable.zipWithOption, Nullable.ofOption, h]

/-- Where there is something to divide, both checked operations have a result. -/
theorem exists_of_not_undivided (h : ¬Undivided s t) :
    ∃ x y q r, s = .value x ∧ t = .value y ∧
      FixedInt.checked .div x y = some q ∧ FixedInt.checked .rem x y = some r := by
  cases s with
  | null => exact absurd (Or.inl rfl) h
  | value x =>
    cases t with
    | null => exact absurd (Or.inr (Or.inl rfl)) h
    | value y =>
      rw [undivided_value] at h
      have hsome (op : CheckedOperator) : ∃ z, FixedInt.checked op x y = some z := by
        rw [← FixedInt.checked_eq_none_iff op] at h
        exact Option.ne_none_iff_exists'.mp h
      obtain ⟨q, hq⟩ := hsome .div
      obtain ⟨r, hr⟩ := hsome .rem
      exact ⟨x, y, q, r, rfl, rfl, hq, hr⟩

/-- On slots, the operator has no fault exactly if the checked operation empties no pair of values. -/
theorem zipWithM_operator_eq_ok_iff (op : CheckedOperator) :
    s.zipWithM (FixedInt.binary op.operator) t = .ok u ↔
      u = s.zipWithOption (FixedInt.checked op) t ∧ (s ≠ .null → t ≠ .null → u ≠ .null) := by
  cases s with
  | null => simp [Nullable.zipWithM, Nullable.zipWithOption, pure, Except.pure, eq_comm]
  | value x =>
    cases t with
    | null => simp [Nullable.zipWithM, Nullable.zipWithOption, pure, Except.pure, eq_comm]
    | value y =>
      simp only [Nullable.zipWithM, Nullable.zipWithOption]
      cases hb : FixedInt.binary op.operator x y with
      | ok z =>
        rw [(FixedInt.binary_operator_eq_ok_iff op).mp hb]
        simp only [Functor.map, Except.map, Except.ok.injEq, Nullable.ofOption]
        constructor
        · rintro rfl
          simp
        · intro h
          exact h.1.symm
      | error fault =>
        have hc : FixedInt.checked op x y = none := by
          by_contra hne
          obtain ⟨z, hz⟩ := Option.ne_none_iff_exists'.mp hne
          rw [(FixedInt.binary_operator_eq_ok_iff op).mpr hz] at hb
          cases hb
        rw [hc]
        simp [Functor.map, Except.map, Nullable.ofOption]

/-- Between columns likewise, and then operator and checked operation give the same column. -/
theorem zipWithM_operator_columns_eq_ok_iff (op : CheckedOperator) (a b c : Column (FixedInt k)) :
    a.zipWithM (Nullable.zipWithM (FixedInt.binary op.operator)) b.broadcast = .ok c ↔
      c = a.checked op b ∧
        ∀ i, a.slot i ≠ .null → b.slot i ≠ .null → (a.checked op b).slot i ≠ .null := by
  have hslot (i : Nat) (u : Nullable (FixedInt k)) :
      (a.slot i).zipWithM (FixedInt.binary op.operator) (b.slot i) = .ok u ↔
        u = (a.checked op b).slot i ∧ (a.slot i ≠ .null → b.slot i ≠ .null → u ≠ .null) := by
    rw [Column.slot_checked]
    exact zipWithM_operator_eq_ok_iff op
  rw [Column.zipWithM_eq_tabulate, Column.zipLength_column, Column.tabulate_eq_ok_iff]
  constructor
  · rintro ⟨hl, hs⟩
    have hc : c = a.checked op b := by
      apply Column.ext_slot (by rw [hl, Column.length_checked])
      intro i hi
      exact ((hslot i _).mp (hs i (by omega))).1
    refine ⟨hc, fun i ha hb => ?_⟩
    by_cases hi : i < max a.length b.length
    · have h := ((hslot i _).mp (hs i hi)).2 ha hb
      rwa [hc] at h
    · exact absurd (Column.slot_of_length_le (by omega)) ha
  · rintro ⟨rfl, hs⟩
    refine ⟨Column.length_checked op a b, fun i _ => ?_⟩
    exact (hslot i _).mpr ⟨rfl, hs i⟩

theorem exists_of_failureAt?_eq_none {op : BinaryOperator} {a b : Column (FixedInt k)}
    (h : ∀ i, op.failureAt? a b i = none) (p q : Passing) :
    ∃ x c, Operation.run? (t := .int k) (.binary op (a.term p) (b.term q)) = some x ∧
      x.result = .ok (integers c) ∧ c.length = max a.length b.length ∧
      ∀ i, (c.slot i).map FixedInt.toInt = op.onSlots (a.slot i) (b.slot i) := by
  obtain ⟨x, hx, hr⟩ := run?_integers op a b p q
  rcases zipWithM_exact op a b with ⟨c, hc, -, hl, hs⟩ | ⟨fault, -, i, hi, -⟩
  · exact ⟨x, c, hx, by rw [hr, hc]; rfl, hl, hs⟩
  · rw [h i] at hi
    cases hi

theorem toInt_slot_injective (h : s.map FixedInt.toInt = t.map FixedInt.toInt) : s = t := by
  cases s with
  | null =>
    cases t with
    | null => rfl
    | value y => cases h
  | value x =>
    cases t with
    | null => cases h
    | value y => exact congrArg Nullable.value (FixedInt.toInt_injective (Nullable.value.inj h))

theorem slotFailure?_quotient :
    BinaryOperator.mul.slotFailure? (s.zipWithOption (FixedInt.checked .div) t) t = none := by
  by_cases hu : Undivided s t
  · rw [(zipWithOption_checked_eq_null_iff .div).mpr hu]
    rfl
  · obtain ⟨x, y, q, r, rfl, rfl, hq, hr⟩ := exists_of_not_undivided hu
    rw [Nullable.zipWithOption, hq]
    exact FixedInt.failure?_quotient_mul hq hr

/-- Slots of checked quotient and remainder, with the product of quotient and divisor in between. -/
structure Divided (s t q m r : Nullable (FixedInt k)) : Prop where
  quotient : q = s.zipWithOption (FixedInt.checked .div) t
  product : m.map FixedInt.toInt = BinaryOperator.mul.onSlots q t
  remainder : r = s.zipWithOption (FixedInt.checked .rem) t

namespace Divided

open BinaryOperator

variable {q m r : Nullable (FixedInt k)}

theorem of_undivided (h : Divided s t q m r) (hu : Undivided s t) :
    q = .null ∧ m = .null ∧ r = .null := by
  have hq : q = .null := h.quotient.trans ((zipWithOption_checked_eq_null_iff .div).mpr hu)
  have hr : r = .null := h.remainder.trans ((zipWithOption_checked_eq_null_iff .rem).mpr hu)
  refine ⟨hq, toInt_slot_injective ?_, hr⟩
  rw [h.product, hq]
  rfl

theorem of_checked {x y u v : FixedInt k} (h : Divided (.value x) (.value y) q m r)
    (hu : FixedInt.checked .div x y = some u) (hv : FixedInt.checked .rem x y = some v) :
    q = .value u ∧ r = .value v ∧ ∃ w, m = .value w ∧ w.toInt = u.toInt * y.toInt := by
  have hq : q = .value u := by rw [h.quotient, Nullable.zipWithOption, hu]; rfl
  have hr : r = .value v := by rw [h.remainder, Nullable.zipWithOption, hv]; rfl
  have hm := h.product
  rw [hq] at hm
  cases m with
  | null => cases hm
  | value w => exact ⟨hq, hr, w, rfl, Nullable.value.inj hm⟩

theorem slotFailure?_sum (h : Divided s t q m r) : add.slotFailure? m r = none := by
  by_cases hu : Undivided s t
  · rw [(h.of_undivided hu).2.1]
    rfl
  · obtain ⟨x, y, u, v, rfl, rfl, hx, hy⟩ := exists_of_not_undivided hu
    obtain ⟨-, rfl, w, rfl, hw⟩ := h.of_checked hx hy
    have hsum := FixedInt.failure?_add_remainder hx hy
    rwa [← hw] at hsum

theorem sum_eq (h : Divided s t q m r) :
    add.onSlots m r = (if q = .null then .null else s).map FixedInt.toInt := by
  by_cases hu : Undivided s t
  · obtain ⟨rfl, rfl, rfl⟩ := h.of_undivided hu
    rfl
  · obtain ⟨x, y, u, v, rfl, rfl, hx, hy⟩ := exists_of_not_undivided hu
    obtain ⟨rfl, rfl, w, rfl, hw⟩ := h.of_checked hx hy
    have hsum := FixedInt.quotient_mul_add_remainder hx hy
    rw [← hw] at hsum
    rw [if_neg (by simp)]
    exact congrArg Nullable.value hsum

end Divided

/-- Quotient times divisor, plus remainder, has no fault and is the dividend where it could be
divided. -/
theorem recompose_columns (a b : Column (FixedInt k)) (p q : Passing) :
    ∃ x y m c, Operation.run? (t := .int k)
        (.binary .mul ((a.checked .div b).term p) (b.term q)) = some x ∧
      x.result = .ok (integers m) ∧
      Operation.run? (t := .int k) (.binary .add (m.term p) ((a.checked .rem b).term q)) = some y ∧
      y.result = .ok (integers c) ∧ c.length = max a.length b.length ∧
      ∀ i, c.slot i = if (a.checked .div b).slot i = .null then .null else a.slot i := by
  have hmul (i : Nat) : BinaryOperator.mul.failureAt? (a.checked .div b) b i = none := by
    rw [BinaryOperator.failureAt?, Column.slot_checked]
    exact slotFailure?_quotient
  obtain ⟨x, m, hx, hxm, hml, hm⟩ := exists_of_failureAt?_eq_none hmul p q
  have hdivided (i : Nat) : Divided (a.slot i) (b.slot i) ((a.checked .div b).slot i) (m.slot i)
      ((a.checked .rem b).slot i) :=
    ⟨Column.slot_checked .div a b i, hm i, Column.slot_checked .rem a b i⟩
  obtain ⟨y, c, hy, hyc, hcl, hc⟩ :=
    exists_of_failureAt?_eq_none (fun i => (hdivided i).slotFailure?_sum) p q
  refine ⟨x, y, m, c, hx, hxm, hy, hyc, ?_, ?_⟩
  · rw [hcl, hml, Column.length_checked, Column.length_checked]
    omega
  · intro i
    exact toInt_slot_injective ((hc i).trans (hdivided i).sum_eq)

theorem run?_operator (op : CheckedOperator) (a b : Column (FixedInt k)) (p q : Passing) :
    ∃ x, Operation.run? (t := .int k) (.binary op.operator (a.term p) (b.term q)) = some x ∧
      ∀ answer, x.result = .ok answer ↔ answer = integers (a.checked op b) ∧
        ∀ i, a.slot i ≠ .null → b.slot i ≠ .null → (a.checked op b).slot i ≠ .null := by
  obtain ⟨x, hx, hr⟩ := run?_integers op.operator a b p q
  refine ⟨x, hx, fun answer => ?_⟩
  have hcolumns := zipWithM_operator_columns_eq_ok_iff op a b
  rw [hr]
  constructor
  · intro ha
    cases hz : a.zipWithM (Nullable.zipWithM (FixedInt.binary op.operator)) b.broadcast with
    | error fault =>
      rw [hz] at ha
      cases ha
    | ok c =>
      rw [hz] at ha
      cases ha
      obtain ⟨rfl, hpresent⟩ := (hcolumns c).mp hz
      exact ⟨rfl, hpresent⟩
  · rintro ⟨rfl, hpresent⟩
    rw [(hcolumns _).mpr ⟨rfl, hpresent⟩]
    rfl

/-- Checked quotient and remainder of two columns are never a fault. They are empty at the same
positions: where an operand is empty, the divisor is zero, or the least integer of a signed kind meets
-1. Elsewhere they satisfy the law of division, and quotient times divisor plus remainder, with the
operators that can overflow, is the dividend again. The operators `/` and `%` have no fault exactly if
every pair of values has a checked result, and then give those. -/
theorem checked_division (a b : Column (FixedInt k)) (p q : Passing) :
    (∀ op,
      Operation.run? (t := .int k) (.method (.checked op) (a.term p) (b.term q)) =
        some ⟨.ok (integers (a.checked op b)), a.paddingLog b.broadcast⟩ ∧
      (a.checked op b).length = max a.length b.length ∧
      ∀ i, (a.checked op b).slot i = .null ↔ Undivided (a.slot i) (b.slot i)) ∧
    (∀ i, ¬Undivided (a.slot i) (b.slot i) → ∃ x y u v,
      a.slot i = .value x ∧ b.slot i = .value y ∧
      (a.checked .div b).slot i = .value u ∧ (a.checked .rem b).slot i = .value v ∧
      x.toInt = u.toInt * y.toInt + v.toInt ∧ v.toInt.natAbs < y.toInt.natAbs ∧
      (v.toInt = 0 ∨ v.toInt.sign = x.toInt.sign)) ∧
    (∃ x y m c, Operation.run? (t := .int k)
        (.binary .mul ((a.checked .div b).term p) (b.term q)) = some x ∧
      x.result = .ok (integers m) ∧
      Operation.run? (t := .int k) (.binary .add (m.term p) ((a.checked .rem b).term q)) = some y ∧
      y.result = .ok (integers c) ∧ c.length = max a.length b.length ∧
      ∀ i, c.slot i = if (a.checked .div b).slot i = .null then .null else a.slot i) ∧
    ∀ op : CheckedOperator, ∃ x,
      Operation.run? (t := .int k) (.binary op.operator (a.term p) (b.term q)) = some x ∧
      ((∃ answer, x.result = .ok answer) ↔
        ∀ i, a.slot i ≠ .null → b.slot i ≠ .null → (a.checked op b).slot i ≠ .null) ∧
      ∀ answer, x.result = .ok answer → answer = integers (a.checked op b) := by
  refine ⟨fun op => ⟨run?_checked op a b p q, Column.length_checked op a b, fun i => ?_⟩,
    fun i hi => ?_, recompose_columns a b p q, fun op => ?_⟩
  · rw [Column.slot_checked]
    exact zipWithOption_checked_eq_null_iff op
  · obtain ⟨x, y, u, v, hs, ht, hu, hv⟩ := exists_of_not_undivided hi
    have hslot (op : CheckedOperator) : (a.checked op b).slot i =
        Nullable.ofOption (FixedInt.checked op x y) := by
      rw [Column.slot_checked, hs, ht]
      rfl
    refine ⟨x, y, u, v, hs, ht, by rw [hslot, hu]; rfl, by rw [hslot, hv]; rfl, ?_⟩
    exact ⟨(FixedInt.quotient_mul_add_remainder hu hv).symm, FixedInt.natAbs_remainder_lt hv,
      FixedInt.remainder_zero_or_sign hv⟩
  · obtain ⟨x, hx, hr⟩ := run?_operator op a b p q
    refine ⟨x, hx, ⟨?_, ?_⟩, ?_⟩
    · rintro ⟨answer, ha⟩
      exact ((hr answer).mp ha).2
    · intro hpresent
      exact ⟨_, (hr _).mpr ⟨rfl, hpresent⟩⟩
    · intro answer ha
      exact ((hr answer).mp ha).1

end ColumnAlgebra
