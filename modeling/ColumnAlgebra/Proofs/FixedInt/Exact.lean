import ColumnAlgebra.Element.Operators
import ColumnAlgebra.Proofs.FixedInt.Bits

/-!
# Operators on integers of fixed width against the integers

Each operator is described on integers of unbounded size: its exact result, and the message where it
has none in the range of a kind. Main statement: on words the operator gives the word for the exact
result, or the fault of that message.
-/

namespace ColumnAlgebra
set_option autoImplicit false

namespace BinaryOperator

/-- The exact result. A quotient is cut toward zero, a remainder has the sign of the dividend, and the
bits of a negative integer are those of its two's complement. -/
def onInt : BinaryOperator → Int → Int → Int
  | add, x, y => x + y
  | sub, x, y => x - y
  | mul, x, y => x * y
  | div, x, y => x.tdiv y
  | rem, x, y => x.tmod y
  | bitAnd, x, y => x.land y
  | bitOr, x, y => x.lor y
  | bitXor, x, y => x.xor y

def outside? (k : IntKind) (n : Int) (message : String) : Option String :=
  if k.minInt ≤ n ∧ n ≤ k.maxInt then none else some message

/-- The message of a division that a kind does not have, given those of its two reasons. -/
def indivisible? (k : IntKind) (x y : Int) (zero overflow : String) : Option String :=
  if y = 0 then some zero
  else if k.signed ∧ x = k.minInt ∧ y = -1 then some overflow
  else none

/-- Where the operator has no result in the range of the kind, and the message of that. -/
def failure? (k : IntKind) : BinaryOperator → Int → Int → Option String
  | add, x, y => outside? k (x + y) "attempt to add with overflow"
  | sub, x, y => outside? k (x - y) "attempt to subtract with overflow"
  | mul, x, y => outside? k (x * y) "attempt to multiply with overflow"
  | div, x, y => indivisible? k x y "attempt to divide by zero" "attempt to divide with overflow"
  | rem, x, y => indivisible? k x y "attempt to calculate the remainder with a divisor of zero"
      "attempt to calculate the remainder with overflow"
  | bitAnd, _, _ | bitOr, _, _ | bitXor, _, _ => none

end BinaryOperator

namespace FixedInt

variable {k : IntKind}

theorem exact_of_mem_range (fault : Fault) {n : Int} (hl : k.minInt ≤ n) (hu : n ≤ k.maxInt) :
    (exact fault n : Except Fault (FixedInt k)) = .ok (wrap k n) := by
  unfold exact ofInt?
  rw [if_pos ⟨hl, hu⟩]

theorem exact_of_not_mem_range (fault : Fault) {n : Int} (h : ¬(k.minInt ≤ n ∧ n ≤ k.maxInt)) :
    (exact fault n : Except Fault (FixedInt k)) = .error fault := by
  unfold exact ofInt?
  rw [if_neg h]

theorem minInt_nonpos (k : IntKind) : k.minInt ≤ 0 := by
  unfold IntKind.minInt
  split <;> omega

theorem maxInt_nonneg (k : IntKind) : 0 ≤ k.maxInt := by
  have hh : 0 < k.halfSize := Nat.two_pow_pos _
  have hs : 0 < k.size := Nat.two_pow_pos _
  unfold IntKind.maxInt
  split <;> omega

theorem minInt_eq (k : IntKind) : k.minInt = if k.signed then -k.maxInt - 1 else 0 := by
  unfold IntKind.minInt IntKind.maxInt
  split <;> omega

theorem not_signed_nonneg (x : FixedInt k) (h : ¬k.signed) : 0 ≤ x.toInt := by
  have hm := x.minInt_le_toInt
  rwa [minInt_eq, if_neg h] at hm

theorem tdiv_mem_range {x y : FixedInt k} (h : ¬Indivisible x y) :
    k.minInt ≤ x.toInt.tdiv y.toInt ∧ x.toInt.tdiv y.toInt ≤ k.maxInt := by
  have hxl := x.minInt_le_toInt
  have hxu := x.toInt_le_maxInt
  have hmin := minInt_eq k
  have habs := Int.natAbs_tdiv_le_natAbs x.toInt y.toInt
  obtain ⟨hy, hedge⟩ := not_or.mp h
  by_cases hs : k.signed
  · rw [if_pos hs] at hmin
    by_cases hx : x.toInt = k.minInt
    · have hne : y.toInt ≠ -1 := fun hn => hedge ⟨hs, hx, hn⟩
      by_cases hone : y.toInt = 1
      · rw [hone, Int.tdiv_one]
        exact ⟨hxl, hxu⟩
      · have hlt : (x.toInt.tdiv y.toInt).natAbs < x.toInt.natAbs := by
          rw [Int.natAbs_tdiv]
          have hm := maxInt_nonneg k
          exact Nat.div_lt_self (by omega) (by omega)
        omega
    · omega
  · rw [if_neg hs] at hmin
    have hx0 := x.not_signed_nonneg hs
    have hq := Int.tdiv_nonneg hx0 (y.not_signed_nonneg hs)
    omega

/-- A remainder lies between zero and the dividend. -/
theorem tmod_between (m n : Int) :
    (0 ≤ m.tmod n ∧ m.tmod n ≤ m) ∨ (m ≤ m.tmod n ∧ m.tmod n ≤ 0) := by
  have habs : (m.tmod n).natAbs ≤ m.natAbs := by
    rw [Int.natAbs_tmod]
    exact Nat.mod_le _ _
  rcases Int.le_total 0 m with hm | hm
  · have hn := Int.tmod_nonneg n hm
    left
    omega
  · have hn := Int.tmod_nonneg n (Int.neg_nonneg_of_nonpos hm)
    rw [Int.neg_tmod] at hn
    right
    omega

theorem tmod_mem_range (x : FixedInt k) (n : Int) :
    k.minInt ≤ x.toInt.tmod n ∧ x.toInt.tmod n ≤ k.maxInt := by
  have hxl := x.minInt_le_toInt
  have hxu := x.toInt_le_maxInt
  have hmin := minInt_nonpos k
  have hmax := maxInt_nonneg k
  rcases tmod_between x.toInt n with hn | hn <;> omega

theorem minInt_tdiv_not_mem_range (hs : k.signed) :
    ¬(k.minInt ≤ k.minInt.tdiv (-1) ∧ k.minInt.tdiv (-1) ≤ k.maxInt) := by
  have hmin := minInt_eq k
  rw [if_pos hs] at hmin
  rw [Int.tdiv_neg, Int.tdiv_one]
  omega

/-- The word for `n`, or else the fault of the message. -/
def IsExact (message? : Option String) (n : Int) : Except Fault (FixedInt k) → Prop
  | .ok z => message? = none ∧ z.toInt = n
  | .error fault => message? = some fault.message

theorem exact_isExact (fault : Fault) (n : Int) :
    IsExact (BinaryOperator.outside? k n fault.message) n (exact fault n : Except Fault (FixedInt k)) := by
  unfold BinaryOperator.outside?
  by_cases h : k.minInt ≤ n ∧ n ≤ k.maxInt
  · rw [if_pos h, exact_of_mem_range fault h.1 h.2]
    exact ⟨rfl, toInt_wrap h.1 h.2⟩
  · rw [if_neg h, exact_of_not_mem_range fault h]
    rfl

theorem div_isExact (x y : FixedInt k) :
    IsExact (BinaryOperator.div.failure? k x.toInt y.toInt) (x.toInt.tdiv y.toInt) (x.div y) := by
  simp only [BinaryOperator.failure?, BinaryOperator.indivisible?, div]
  by_cases hy : y.toInt = 0
  · rw [if_pos hy, if_pos hy]
    rfl
  · rw [if_neg hy, if_neg hy]
    by_cases hedge : k.signed ∧ x.toInt = k.minInt ∧ y.toInt = -1
    · have hr := minInt_tdiv_not_mem_range hedge.1
      rw [if_pos hedge, hedge.2.1, hedge.2.2, exact_of_not_mem_range _ hr]
      rfl
    · have hr := tdiv_mem_range (not_or.mpr ⟨hy, hedge⟩)
      rw [if_neg hedge, exact_of_mem_range _ hr.1 hr.2]
      exact ⟨rfl, toInt_wrap hr.1 hr.2⟩

theorem rem_isExact (x y : FixedInt k) :
    IsExact (BinaryOperator.rem.failure? k x.toInt y.toInt) (x.toInt.tmod y.toInt) (x.rem y) := by
  simp only [BinaryOperator.failure?, BinaryOperator.indivisible?, rem]
  by_cases hy : y.toInt = 0
  · rw [if_pos hy, if_pos hy]
    rfl
  · rw [if_neg hy, if_neg hy]
    by_cases hedge : k.signed ∧ x.toInt = k.minInt ∧ y.toInt = -1
    · rw [if_pos hedge, if_pos hedge]
      rfl
    · have hr := tmod_mem_range x y.toInt
      rw [if_neg hedge, if_neg hedge]
      exact ⟨rfl, toInt_wrap hr.1 hr.2⟩

theorem binary_isExact (op : BinaryOperator) (x y : FixedInt k) :
    IsExact (op.failure? k x.toInt y.toInt) (op.onInt x.toInt y.toInt) (binary op x y) := by
  cases op with
  | add => exact exact_isExact .addOverflow _
  | sub => exact exact_isExact .subOverflow _
  | mul => exact exact_isExact .mulOverflow _
  | div => exact div_isExact x y
  | rem => exact rem_isExact x y
  | bitAnd => exact ⟨rfl, toInt_bitAnd x y⟩
  | bitOr => exact ⟨rfl, toInt_bitOr x y⟩
  | bitXor => exact ⟨rfl, toInt_bitXor x y⟩

end FixedInt
end ColumnAlgebra
