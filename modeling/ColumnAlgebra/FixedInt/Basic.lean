/-!
# Integers of fixed width

An integer kind is a width and whether the top bit is a sign. A `FixedInt k` is a word of the kind's
width; `toInt` is the integer that it stands for, and `ofInt?` finds the word for an integer of the
kind's range. Main statements: `toInt` is injective, stays in the range, and `ofInt?` inverts it.
-/

namespace ColumnAlgebra
set_option autoImplicit false

/-- `size` is the width of a memory address. -/
inductive IntWidth where
  | w8
  | w16
  | w32
  | w64
  | w128
  | size
  deriving DecidableEq

def IntWidth.bits : IntWidth → Nat
  | w8 => 8
  | w16 => 16
  | w32 => 32
  | w64 | size => 64
  | w128 => 128

structure IntKind where
  signed : Bool
  width : IntWidth
  deriving DecidableEq

namespace IntKind

def i32 : IntKind := ⟨true, .w32⟩

def i64 : IntKind := ⟨true, .w64⟩

def bits (k : IntKind) : Nat := k.width.bits

/-- The number of words. -/
def size (k : IntKind) : Nat := Nat.pow 2 k.bits

/-- The number of words without the top bit. -/
def halfSize (k : IntKind) : Nat := Nat.pow 2 (k.bits - 1)

def minInt (k : IntKind) : Int := if k.signed then -k.halfSize else 0

def maxInt (k : IntKind) : Int := if k.signed then k.halfSize - 1 else k.size - 1

theorem bits_pos (k : IntKind) : 0 < k.bits := by
  rcases k with ⟨s, w⟩
  cases w <;> simp [bits, IntWidth.bits]

end IntKind

structure FixedInt (k : IntKind) where
  word : BitVec k.bits
  deriving DecidableEq

namespace FixedInt

variable {k : IntKind}

def toInt (x : FixedInt k) : Int := if k.signed then x.word.toInt else x.word.toNat

/-- The word of the integer modulo the number of words. -/
def wrap (k : IntKind) (n : Int) : FixedInt k := ⟨BitVec.ofInt k.bits n⟩

def ofInt? (k : IntKind) (n : Int) : Option (FixedInt k) :=
  if k.minInt ≤ n ∧ n ≤ k.maxInt then some (wrap k n) else none

theorem toInt_injective {x y : FixedInt k} (h : x.toInt = y.toInt) : x = y := by
  cases x
  cases y
  unfold toInt at h
  split at h
  · exact congrArg mk (BitVec.eq_of_toInt_eq h)
  · exact congrArg mk (BitVec.eq_of_toNat_eq (by exact_mod_cast h))

theorem minInt_le_toInt (x : FixedInt k) : k.minInt ≤ x.toInt := by
  have hl := BitVec.le_toInt x.word
  have hh : (k.halfSize : Int) = 2 ^ (k.bits - 1) := by simp [IntKind.halfSize]
  unfold toInt IntKind.minInt
  split <;> omega

theorem toInt_le_maxInt (x : FixedInt k) : x.toInt ≤ k.maxInt := by
  have hs := BitVec.toInt_lt (x := x.word)
  have hu : x.word.toNat < k.size := x.word.isLt
  have hh : (k.halfSize : Int) = 2 ^ (k.bits - 1) := by simp [IntKind.halfSize]
  unfold toInt IntKind.maxInt
  split <;> omega

theorem toInt_wrap {n : Int} (hl : k.minInt ≤ n) (hu : n ≤ k.maxInt) : (wrap k n).toInt = n := by
  have hk := k.bits_pos
  have hh : (k.halfSize : Int) = 2 ^ (k.bits - 1) := by simp [IntKind.halfSize]
  have hw : ((2 ^ k.bits : Nat) : Int) = k.size := by simp [IntKind.size]
  unfold IntKind.minInt at hl
  unfold IntKind.maxInt at hu
  unfold toInt wrap
  split
  · rename_i hs
    rw [if_pos hs] at hl hu
    exact BitVec.toInt_ofInt_eq_self hk (by omega) (by omega)
  · rename_i hs
    rw [if_neg hs] at hl hu
    rw [BitVec.toNat_ofInt, hw, Int.emod_eq_of_lt hl (by omega)]
    omega

theorem toInt_of_ofInt? {n : Int} {x : FixedInt k} (h : ofInt? k n = some x) : x.toInt = n := by
  unfold ofInt? at h
  split at h
  · rename_i hr
    cases h
    exact toInt_wrap hr.1 hr.2
  · cases h

@[simp] theorem ofInt?_toInt (x : FixedInt k) : ofInt? k x.toInt = some x := by
  unfold ofInt?
  rw [if_pos ⟨x.minInt_le_toInt, x.toInt_le_maxInt⟩]
  exact congrArg some (toInt_injective (toInt_wrap x.minInt_le_toInt x.toInt_le_maxInt))

end FixedInt
end ColumnAlgebra
