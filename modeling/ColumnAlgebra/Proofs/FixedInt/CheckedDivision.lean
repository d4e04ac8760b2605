import ColumnAlgebra.Proofs.FixedInt.Exact

/-!
# Checked division of integers of fixed width

A checked operation has a result exactly where the operator of the same name has one, and then the same
result. Main statement: a quotient times the divisor, with the remainder added to it, stays in the range
of the kind on the way and is the dividend.
-/

namespace ColumnAlgebra
set_option autoImplicit false

/-- The operator that has a fault where the checked operation has no result. -/
def CheckedOperator.operator : CheckedOperator → BinaryOperator
  | div => .div
  | rem => .rem

namespace FixedInt

variable {k : IntKind} {x y q r z : FixedInt k}

theorem indivisible?_eq_none_iff (zero overflow : String) :
    BinaryOperator.indivisible? k x.toInt y.toInt zero overflow = none ↔ ¬Indivisible x y := by
  unfold BinaryOperator.indivisible? Indivisible
  by_cases hy : y.toInt = 0
  · simp [hy]
  · rw [if_neg hy]
    split
    · rename_i hedge
      simp [hedge]
    · rename_i hedge
      simp [hy, hedge]

theorem failure?_operator_eq_none_iff (op : CheckedOperator) :
    op.operator.failure? k x.toInt y.toInt = none ↔ ¬Indivisible x y := by
  cases op with
  | div => exact indivisible?_eq_none_iff _ _
  | rem => exact indivisible?_eq_none_iff _ _

theorem checked_eq_none_iff (op : CheckedOperator) : checked op x y = none ↔ Indivisible x y := by
  cases op with
  | div => simp [checked, checkedDiv]
  | rem => simp [checked, checkedRem]

example : checked .div (wrap .i32 (-2147483648)) (wrap .i32 (-1)) = none := by
  decide

theorem toInt_of_checked {op : CheckedOperator} (h : checked op x y = some z) :
    z.toInt = op.operator.onInt x.toInt y.toInt := by
  have hxy : ¬Indivisible x y := by
    rw [← checked_eq_none_iff op, h]
    simp
  cases op with
  | div =>
    have hr := tdiv_mem_range hxy
    simp only [checked, checkedDiv, if_neg hxy, Option.some.injEq] at h
    subst h
    exact toInt_wrap hr.1 hr.2
  | rem =>
    have hr := tmod_mem_range x y.toInt
    simp only [checked, checkedRem, if_neg hxy, Option.some.injEq] at h
    subst h
    exact toInt_wrap hr.1 hr.2

/-- The checked operation is the operator, with no result in place of a fault. -/
theorem binary_operator_eq_ok_iff (op : CheckedOperator) :
    binary op.operator x y = .ok z ↔ checked op x y = some z := by
  have hexact := binary_isExact op.operator x y
  cases hb : binary op.operator x y with
  | error fault =>
    rw [hb] at hexact
    have hxy : Indivisible x y := by
      by_contra hxy
      rw [IsExact, (failure?_operator_eq_none_iff op).mpr hxy] at hexact
      cases hexact
    rw [(checked_eq_none_iff op).mpr hxy]
    simp
  | ok w =>
    rw [hb] at hexact
    have hxy : ¬Indivisible x y := (failure?_operator_eq_none_iff op).mp hexact.1
    cases hc : checked op x y with
    | none => exact absurd ((checked_eq_none_iff op).mp hc) hxy
    | some v =>
      have hv : v = w := toInt_injective ((toInt_of_checked hc).trans hexact.2.symm)
      rw [hv, Except.ok.injEq, Option.some.injEq]

theorem quotient_mul_add_remainder (hq : checked .div x y = some q) (hr : checked .rem x y = some r) :
    q.toInt * y.toInt + r.toInt = x.toInt := by
  rw [toInt_of_checked hq, toInt_of_checked hr]
  exact Int.tdiv_mul_add_tmod x.toInt y.toInt

theorem natAbs_remainder_lt (hr : checked .rem x y = some r) :
    r.toInt.natAbs < y.toInt.natAbs := by
  have hy : y.toInt ≠ 0 := by
    intro hy
    rw [(checked_eq_none_iff .rem).mpr (Or.inl hy)] at hr
    cases hr
  have hrem : r.toInt = x.toInt.tmod y.toInt := toInt_of_checked hr
  rw [hrem, Int.natAbs_tmod]
  exact Nat.mod_lt _ (Int.natAbs_pos.mpr hy)

theorem remainder_between (hr : checked .rem x y = some r) :
    (0 ≤ r.toInt ∧ r.toInt ≤ x.toInt) ∨ (x.toInt ≤ r.toInt ∧ r.toInt ≤ 0) := by
  rw [toInt_of_checked hr]
  exact tmod_between x.toInt y.toInt

theorem remainder_zero_or_sign (hr : checked .rem x y = some r) :
    r.toInt = 0 ∨ r.toInt.sign = x.toInt.sign := by
  by_cases h0 : r.toInt = 0
  · exact Or.inl h0
  · right
    rcases remainder_between hr with ⟨hl, hu⟩ | ⟨hl, hu⟩
    · rw [Int.sign_eq_one_of_pos (by omega), Int.sign_eq_one_of_pos (by omega)]
    · rw [Int.sign_eq_neg_one_of_neg (by omega), Int.sign_eq_neg_one_of_neg (by omega)]

/-- Like the remainder, the product of quotient and divisor lies between zero and the dividend. -/
theorem failure?_quotient_mul (hq : checked .div x y = some q) (hr : checked .rem x y = some r) :
    BinaryOperator.mul.failure? k q.toInt y.toInt = none := by
  have hsum := quotient_mul_add_remainder hq hr
  have hxl := x.minInt_le_toInt
  have hxu := x.toInt_le_maxInt
  have hmin := minInt_nonpos k
  have hmax := maxInt_nonneg k
  apply if_pos
  rcases remainder_between hr with ⟨hl, hu⟩ | ⟨hl, hu⟩ <;> omega

theorem failure?_add_remainder (hq : checked .div x y = some q) (hr : checked .rem x y = some r) :
    BinaryOperator.add.failure? k (q.toInt * y.toInt) r.toInt = none := by
  have hsum := quotient_mul_add_remainder hq hr
  apply if_pos
  rw [hsum]
  exact ⟨x.minInt_le_toInt, x.toInt_le_maxInt⟩

end FixedInt
end ColumnAlgebra
