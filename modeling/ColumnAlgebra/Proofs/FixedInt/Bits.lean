import ColumnAlgebra.FixedInt.Arithmetic
import Mathlib.Data.Int.Bitwise

/-!
# Bits of integers of fixed width

A word shows the low bits of the integer that it stands for, in two's complement, and its top bit, if
that is a sign, is repeated above them. So the operations on words bit by bit are the operations on
integers bit by bit.
-/

namespace ColumnAlgebra.FixedInt
set_option autoImplicit false

theorem eq_of_testBit_eq {m n : Int} (h : ∀ i, m.testBit i = n.testBit i) : m = n := by
  -- Far enough up, the bits of an integer show its sign.
  have mixed (a b : Nat) (hab : ∀ i, a.testBit i = !b.testBit i) : False := by
    have hi := hab (a + b)
    rw [Nat.testBit_lt_two_pow (Nat.lt_of_le_of_lt (Nat.le_add_right a b) Nat.lt_two_pow_self),
      Nat.testBit_lt_two_pow (Nat.lt_of_le_of_lt (Nat.le_add_left b a) Nat.lt_two_pow_self)] at hi
    cases hi
  cases m with
  | ofNat a =>
    cases n with
    | ofNat b => exact congrArg Int.ofNat (Nat.eq_of_testBit_eq h)
    | negSucc b => exact (mixed a b h).elim
  | negSucc a =>
    cases n with
    | ofNat b => exact (mixed b a fun i => (h i).symm).elim
    | negSucc b => exact congrArg Int.negSucc (Nat.eq_of_testBit_eq fun i => Bool.not_inj (h i))

theorem testBit_toNat_cast {w : Nat} (x : BitVec w) (i : Nat) :
    (x.toNat : Int).testBit i = x.getLsbD i := rfl

theorem testBit_word_toInt {w : Nat} (x : BitVec w) (i : Nat) :
    x.toInt.testBit i = if i < w then x.getLsbD i else x.msb := by
  rw [BitVec.toInt_eq_msb_cond]
  split
  · rename_i hm
    have hx := x.isLt
    have hn : (x.toNat : Int) - (2 ^ w : Nat) = Int.negSucc (2 ^ w - (x.toNat + 1)) := by
      rw [Int.negSucc_eq]
      omega
    rw [hn]
    change (!(2 ^ w - (x.toNat + 1)).testBit i) = _
    rw [Nat.testBit_two_pow_sub_succ hx, hm]
    by_cases hi : i < w <;> simp [hi, BitVec.getLsbD]
  · rename_i hm
    rw [testBit_toNat_cast]
    by_cases hi : i < w
    · rw [if_pos hi]
    · rw [if_neg hi, BitVec.getLsbD_of_ge x i (by omega)]
      simpa using hm

variable {k : IntKind}

theorem testBit_toInt (x : FixedInt k) (i : Nat) :
    x.toInt.testBit i = if i < k.bits then x.word.getLsbD i else (k.signed && x.word.msb) := by
  unfold toInt
  split
  · rename_i hs
    rw [testBit_word_toInt, hs, Bool.true_and]
  · rename_i hs
    rw [testBit_toNat_cast]
    by_cases hi : i < k.bits
    · rw [if_pos hi]
    · rw [if_neg hi, BitVec.getLsbD_of_ge x.word i (by omega)]
      simp [hs]

/-- An operation on integers bit by bit is done on the words, if it leaves two zeros a zero. -/
theorem toInt_bitwise {f : Bool → Bool → Bool} {g : Int → Int → Int} (x y z : FixedInt k)
    (hzero : f false false = false)
    (hg : ∀ i, (g x.toInt y.toInt).testBit i = f (x.toInt.testBit i) (y.toInt.testBit i))
    (hbits : ∀ i < k.bits, z.word.getLsbD i = f (x.word.getLsbD i) (y.word.getLsbD i))
    (hsign : z.word.msb = f x.word.msb y.word.msb) : z.toInt = g x.toInt y.toInt := by
  apply eq_of_testBit_eq
  intro i
  rw [hg, testBit_toInt, testBit_toInt, testBit_toInt]
  by_cases hi : i < k.bits
  · simp only [hi, if_true]
    exact hbits i hi
  · simp only [hi, if_false]
    cases k.signed with
    | false => exact hzero.symm
    | true => exact hsign

theorem toInt_bitAnd (x y : FixedInt k) : (x.bitAnd y).toInt = x.toInt.land y.toInt :=
  toInt_bitwise x y _ rfl (Int.testBit_land _ _) (fun _ _ => BitVec.getLsbD_and) BitVec.msb_and

theorem toInt_bitOr (x y : FixedInt k) : (x.bitOr y).toInt = x.toInt.lor y.toInt :=
  toInt_bitwise x y _ rfl (Int.testBit_lor _ _) (fun _ _ => BitVec.getLsbD_or) BitVec.msb_or

theorem toInt_bitXor (x y : FixedInt k) : (x.bitXor y).toInt = x.toInt.xor y.toInt :=
  toInt_bitwise x y _ rfl (Int.testBit_lxor _ _) (fun _ _ => BitVec.getLsbD_xor) BitVec.msb_xor

end ColumnAlgebra.FixedInt
