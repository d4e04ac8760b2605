import ColumnAlgebra.FloatKind.Basic

/-!
# Rounding to the nearest number

A ratio of naturals goes to the nearest number of a kind, a tie to the one whose last bit is zero, and
a ratio beyond the largest number to infinity. Written in units of the last place, a magnitude
`m * 2 ^ q` has the bits `m` plus one step of the exponent field for every doubling of the unit, so a
significand that rounds up to the next power of two needs no care of its own.
-/

namespace ColumnAlgebra
set_option autoImplicit false

namespace FloatKind

/-- The nearest natural to `num / den`, of two the even one. -/
def divNearestEven (num den : Nat) : Nat :=
  let quotient := num / den
  let rest := num % den
  if 2 * rest < den then quotient
  else if den < 2 * rest then quotient + 1
  else quotient + quotient % 2

/-- The ratio in units of `2 ^ q`, as numerator and denominator. -/
def inUnits (num den : Nat) (q : Int) : Nat × Nat :=
  if 0 ≤ q then (num, den * Nat.pow 2 q.toNat) else (num * Nat.pow 2 (-q).toNat, den)

/-- The exponent of the last place of the number nearest to `num / den`. -/
def lastPlace (k : FloatKind) (num den : Nat) : Int :=
  let q := (num.log2 : Int) - den.log2 - k.precision
  let (n, d) := inUnits num den q
  max k.leastExponent (if d * Nat.pow 2 k.precision ≤ n then q + 1 else q)

def magnitudeBits (k : FloatKind) (num den : Nat) : Nat :=
  if num = 0 then 0
  else
    let q := k.lastPlace num den
    let (n, d) := inUnits num den q
    min k.infinityBits
      ((q - k.leastExponent).toNat * Nat.pow 2 (k.precision - 1) + divNearestEven n d)

/-- The number nearest to `num / den`, with the given sign. -/
def nearest (k : FloatKind) (negative : Bool) (num den : Nat) : k.Number :=
  k.ofBits ((if negative then k.signBit else 0) + k.magnitudeBits num den)

def infinity (k : FloatKind) (negative : Bool) : k.Number :=
  k.ofBits ((if negative then k.signBit else 0) + k.infinityBits)

def nan (k : FloatKind) : k.Number := k.ofBits (k.infinityBits + Nat.pow 2 (k.precision - 2))

/-- The number nearest to `digits * 10 ^ exponent`. Past four hundred places every kind is at
infinity or at zero, so the power is not formed there. -/
def ofDecimal (k : FloatKind) (negative : Bool) (digits : Nat) (exponent : Int) : k.Number :=
  let places : Int := exponent + (Nat.toDigits 10 digits).length
  if digits = 0 ∨ places < -400 then k.nearest negative 0 1
  else if 400 < places then k.infinity negative
  else if 0 ≤ exponent then k.nearest negative (digits * Nat.pow 10 exponent.toNat) 1
  else k.nearest negative digits (Nat.pow 10 (-exponent).toNat)

end FloatKind
end ColumnAlgebra
