/-!
# Decimal text of integers

A minus sign stands before the digits of a negative integer, and nothing before the others.
-/

namespace ColumnAlgebra.Decimal
set_option autoImplicit false

def ofInt (n : Int) : List Char :=
  if n < 0 then '-' :: Nat.toDigits 10 n.natAbs else Nat.toDigits 10 n.natAbs

def digits? (cs : List Char) : Option Nat :=
  if cs ≠ [] ∧ cs.all Char.isDigit then some (Nat.ofDigitChars 10 cs 0) else none

/-- Leading zeros are read over. -/
def toInt? : List Char → Option Int
  | '-' :: cs => (digits? cs).map fun n : Nat => -(n : Int)
  | cs => (digits? cs).map fun n : Nat => (n : Int)

theorem digits?_toDigits (n : Nat) : digits? (Nat.toDigits 10 n) = some n := by
  unfold digits?
  rw [if_pos]
  · rw [Nat.ofDigitChars_ten_toDigits]
  · constructor
    · exact Nat.toDigits_ne_nil
    · rw [List.all_eq_true]
      intro c hc
      exact Nat.isDigit_of_mem_toDigits (by decide) (by decide) hc

theorem exists_toDigits_eq_cons (n : Nat) :
    ∃ d ds, Nat.toDigits 10 n = d :: ds ∧ d.isDigit = true := by
  cases h : Nat.toDigits 10 n with
  | nil => exact absurd h Nat.toDigits_ne_nil
  | cons d ds =>
    refine ⟨d, ds, rfl, ?_⟩
    exact Nat.isDigit_of_mem_toDigits (b := 10) (n := n) (by decide) (by decide)
      (by rw [h]; exact List.mem_cons_self)

theorem ne_minus_of_isDigit {c : Char} (hc : c.isDigit = true) : c ≠ '-' := by
  rintro rfl
  exact absurd hc (by decide)

theorem eq_nil_of_toDigits_eq_cons_zero {n : Nat} {ds : List Char}
    (h : Nat.toDigits 10 n = '0' :: ds) : ds = [] := by
  induction n using Nat.strongRecOn generalizing ds with
  | ind n ih =>
    by_cases hn : n < 10
    · rw [Nat.toDigits_of_lt_base hn] at h
      exact (List.cons.inj h).2.symm
    · rw [Nat.toDigits_of_base_le (by decide) (by omega)] at h
      obtain ⟨d, front, hfront, -⟩ := exists_toDigits_eq_cons (n / 10)
      rw [hfront] at h
      have hd : d = '0' := (List.cons.inj h).1
      subst hd
      have hnil : front = [] := ih (n / 10) (by omega) hfront
      have hval : Nat.ofDigitChars 10 (Nat.toDigits 10 (n / 10)) 0 = n / 10 :=
        Nat.ofDigitChars_ten_toDigits
      rw [hfront, hnil] at hval
      have hzero : Nat.ofDigitChars 10 ['0'] 0 = 0 := by decide
      omega

theorem toInt?_ofInt (n : Int) : toInt? (ofInt n) = some n := by
  unfold ofInt
  split
  · simp only [toInt?, digits?_toDigits, Option.map_some, Option.some.injEq]
    omega
  · obtain ⟨d, ds, hds, hd⟩ := exists_toDigits_eq_cons n.natAbs
    unfold toInt?
    split
    · rename_i heq
      rw [hds] at heq
      exact absurd (List.cons.inj heq).1 (ne_minus_of_isDigit hd)
    · simp only [digits?_toDigits, Option.map_some, Option.some.injEq]
      omega

end ColumnAlgebra.Decimal
