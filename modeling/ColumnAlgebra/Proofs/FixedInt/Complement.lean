import ColumnAlgebra.Proofs.FixedInt.Inverse

/-!
# Bits and arithmetic

The bits of a disjunction are those of the conjunction and of the exclusive disjunction, without a bit
that both have; the complement turns the range of the kind round. Main statements: so on the integers
that the words stand for, signed or not, a disjunction is a sum, and a complement is a difference, one
off the negation; where a negation has no result.
-/

namespace ColumnAlgebra.FixedInt
set_option autoImplicit false

theorem and_and_xor {w : Nat} (x y : BitVec w) : (x &&& y) &&& (x ^^^ y) = 0#w := by
  apply BitVec.eq_of_getLsbD_eq
  intro i _
  simp only [BitVec.getLsbD_and, BitVec.getLsbD_xor, BitVec.getLsbD_zero]
  cases x.getLsbD i <;> cases y.getLsbD i <;> rfl

theorem and_or_xor {w : Nat} (x y : BitVec w) : (x &&& y) ||| (x ^^^ y) = x ||| y := by
  apply BitVec.eq_of_getLsbD_eq
  intro i _
  simp only [BitVec.getLsbD_and, BitVec.getLsbD_xor, BitVec.getLsbD_or]
  cases x.getLsbD i <;> cases y.getLsbD i <;> rfl

theorem toNat_or {w : Nat} (x y : BitVec w) :
    (x ||| y).toNat = (x &&& y).toNat + (x ^^^ y).toNat := by
  rw [← BitVec.toNat_add_of_and_eq_zero (and_and_xor x y),
    BitVec.add_eq_or_of_and_eq_zero _ _ (and_and_xor x y), and_or_xor]

/-- The top bits add up like the others, and so a sign makes no difference. -/
theorem toInt_or {w : Nat} (x y : BitVec w) :
    (x ||| y).toInt = (x &&& y).toInt + (x ^^^ y).toInt := by
  have hn := toNat_or x y
  simp only [BitVec.toInt_eq_msb_cond, BitVec.msb_or, BitVec.msb_and, BitVec.msb_xor]
  cases x.msb <;> cases y.msb <;>
    simp only [Bool.or_self, Bool.or_true, Bool.or_false, Bool.and_self, Bool.and_true, Bool.and_false,
      Bool.xor_self, Bool.xor_true, Bool.xor_false, Bool.not_false, if_true, if_false,
      Bool.false_eq_true] <;> omega

variable {k : IntKind} {x y z : FixedInt k}

theorem toInt_bitOr_eq_add (x y : FixedInt k) :
    (x.bitOr y).toInt = (x.bitAnd y).toInt + (x.bitXor y).toInt := by
  unfold toInt
  split
  · exact toInt_or x.word y.word
  · exact_mod_cast toNat_or x.word y.word

theorem sub_bitAnd_of_bitOr (x y : FixedInt k) : (x.bitOr y).sub (x.bitAnd y) = .ok (x.bitXor y) := by
  have h := toInt_bitOr_eq_add x y
  exact exact_eq_ok_iff.mpr (by omega)

theorem complement_bitAnd (x y : FixedInt k) :
    (x.bitAnd y).complement = x.complement.bitOr y.complement := congrArg mk BitVec.not_and

theorem complement_bitOr (x y : FixedInt k) :
    (x.bitOr y).complement = x.complement.bitAnd y.complement := congrArg mk BitVec.not_or

theorem toNat_complement (x : FixedInt k) : (x.complement.word.toNat : Int) = k.size - 1 - x.word.toNat := by
  have hx : x.word.toNat < k.size := x.word.isLt
  have hn : x.complement.word.toNat = k.size - 1 - x.word.toNat := BitVec.toNat_not
  omega

theorem toInt_complement (x : FixedInt k) : x.complement.toInt = k.minInt + k.maxInt - x.toInt := by
  have hn := toNat_complement x
  have hm : x.complement.word.msb = !x.word.msb := by simp [complement, k.bits_pos]
  have hsize : k.size = 2 ^ k.bits := rfl
  unfold toInt IntKind.minInt IntKind.maxInt
  split
  · rw [BitVec.toInt_eq_msb_cond, BitVec.toInt_eq_msb_cond, hm, ← hsize]
    cases x.word.msb
    · simp only [Bool.not_false, if_true, Bool.false_eq_true, if_false]
      omega
    · simp only [Bool.not_true, if_true, Bool.false_eq_true, if_false]
      omega
  · omega

/-- The integer whose difference with any other is the complement of that one. -/
theorem sub_of_minInt_add_maxInt (h : z.toInt = k.minInt + k.maxInt) : z.sub x = .ok x.complement := by
  rw [sub, exact_eq_ok_iff, toInt_complement, h]

theorem minInt_add_maxInt (hs : k.signed = true) : k.minInt + k.maxInt = -1 := by
  rw [minInt_eq, if_pos hs]
  omega

theorem two_le_halfSize (k : IntKind) : 2 ≤ k.halfSize := by
  rcases k with ⟨s, w⟩
  cases w <;> simp [IntKind.halfSize, IntKind.bits, IntWidth.bits]

theorem toInt_wrap_of_signed (hs : k.signed = true) {n : Int} (hl : -1 ≤ n) (hu : n ≤ 1) :
    (wrap k n).toInt = n := by
  have hhalf : 2 ≤ k.halfSize := two_le_halfSize k
  apply toInt_wrap
  · rw [IntKind.minInt, if_pos hs]
    omega
  · rw [IntKind.maxInt, if_pos hs]
    omega

/-- A negation in other words. -/
theorem sub_of_zero (h : z.toInt = 0) : z.sub x = exact .subOverflow (-x.toInt) := by
  rw [sub, h, Int.zero_sub]

theorem complement_add_of_one (hs : k.signed = true) (h : z.toInt = 1) :
    x.complement.add z = exact .addOverflow (-x.toInt) := by
  have hsum : k.minInt + k.maxInt - x.toInt + 1 = -x.toInt := by
    rw [minInt_add_maxInt hs]
    omega
  rw [add, toInt_complement, h, hsum]

theorem exists_neg_eq_error_iff (hs : k.signed = true) :
    (∃ e, x.neg = .error e) ↔ x.toInt = k.minInt := by
  have hk := minInt_add_maxInt hs
  have hxl := x.minInt_le_toInt
  have hxu := x.toInt_le_maxInt
  refine exists_exact_eq_error_iff.trans ?_
  omega

end ColumnAlgebra.FixedInt
