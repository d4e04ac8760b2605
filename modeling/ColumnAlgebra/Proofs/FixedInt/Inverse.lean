import ColumnAlgebra.Proofs.FixedInt.CheckedDivision

/-!
# Operators that undo each other

An operator has a result exactly where the kind has a word for the exact integer, and then this word. So
what undoes the operator on integers has a result as well: the integer to be found is that of a word.
Main statements: a difference undoes a sum, a sum a difference, and a quotient a product, if the factor
is not zero; where a difference has no result.
-/

namespace ColumnAlgebra.FixedInt
set_option autoImplicit false

variable {k : IntKind} {x y z : FixedInt k}

theorem exact_eq_ok_iff {fault : Fault} {n : Int} : exact fault n = .ok z ↔ z.toInt = n := by
  constructor
  · exact toInt_of_exact
  · rintro rfl
    unfold exact
    rw [ofInt?_toInt]

theorem exists_exact_eq_error_iff {fault : Fault} {n : Int} :
    (∃ e, (exact fault n : Except Fault (FixedInt k)) = .error e) ↔ ¬(k.minInt ≤ n ∧ n ≤ k.maxInt) := by
  constructor
  · rintro ⟨e, he⟩ ⟨hl, hu⟩
    rw [exact_of_mem_range fault hl hu] at he
    cases he
  · intro h
    exact ⟨fault, exact_of_not_mem_range fault h⟩

theorem eq_of_exact_eq_error {fault e : Fault} {n : Int}
    (h : (exact fault n : Except Fault (FixedInt k)) = .error e) : e = fault := by
  unfold exact at h
  split at h
  · cases h
  · exact (Except.error.inj h).symm

theorem sub_of_add (h : x.add y = .ok z) : z.sub y = .ok x := by
  have hz := toInt_of_exact h
  exact exact_eq_ok_iff.mpr (by omega)

theorem add_of_sub (h : x.sub y = .ok z) : z.add y = .ok x := by
  have hz := toInt_of_exact h
  exact exact_eq_ok_iff.mpr (by omega)

/-- The least integer is no product with -1, as its negation is out of range. -/
theorem not_indivisible_of_mul (h : x.mul y = .ok z) (hy : y.toInt ≠ 0) : ¬Indivisible z y := by
  rintro (hzero | ⟨hs, hmin, hone⟩)
  · exact hy hzero
  · have hz := toInt_of_exact h
    have hx := x.toInt_le_maxInt
    have hk := minInt_eq k
    rw [if_pos hs] at hk
    rw [hone] at hz
    omega

theorem checked_div_of_mul (h : x.mul y = .ok z) :
    checked .div z y = if y.toInt != 0 then some x else none := by
  by_cases hy : y.toInt = 0
  · rw [(checked_eq_none_iff .div).mpr (Or.inl hy)]
    simp [hy]
  · have hne := (checked_eq_none_iff .div).not.mpr (not_indivisible_of_mul h hy)
    obtain ⟨q, hq⟩ := Option.ne_none_iff_exists'.mp hne
    have hqx : q.toInt = x.toInt := by
      rw [toInt_of_checked hq, toInt_of_exact h]
      exact Int.mul_tdiv_cancel x.toInt hy
    rw [hq, toInt_injective hqx]
    simp [hy]

theorem exists_div_eq_error_iff_of_mul (h : x.mul y = .ok z) :
    (∃ e, z.div y = .error e) ↔ y.toInt = 0 := by
  constructor
  · rintro ⟨e, he⟩
    by_contra hy
    have hq := checked_div_of_mul h
    rw [if_pos (by simpa using hy), ← binary_operator_eq_ok_iff .div] at hq
    cases hq.symm.trans he
  · intro hy
    exact ⟨.divByZero, if_pos hy⟩

theorem exists_sub_eq_error_iff : (∃ e, x.sub y = .error e) ↔
    ¬(k.minInt ≤ x.toInt - y.toInt ∧ x.toInt - y.toInt ≤ k.maxInt) := exists_exact_eq_error_iff

theorem exists_sub_eq_error_iff_lt (hs : k.signed = false) :
    (∃ e, x.sub y = .error e) ↔ x.toInt < y.toInt := by
  have hk := minInt_eq k
  rw [if_neg (by simp [hs])] at hk
  have hx := x.toInt_le_maxInt
  have hy := y.minInt_le_toInt
  rw [exists_sub_eq_error_iff]
  omega

/-- Two integers of one sign are not further apart than each of them is from zero. -/
theorem sub_mem_range (hs : k.signed = true) (same : 0 ≤ x.toInt ↔ 0 ≤ y.toInt) :
    k.minInt ≤ x.toInt - y.toInt ∧ x.toInt - y.toInt ≤ k.maxInt := by
  have hk := minInt_eq k
  rw [if_pos hs] at hk
  have hxl := x.minInt_le_toInt
  have hxu := x.toInt_le_maxInt
  have hyl := y.minInt_le_toInt
  have hyu := y.toInt_le_maxInt
  omega

end ColumnAlgebra.FixedInt
