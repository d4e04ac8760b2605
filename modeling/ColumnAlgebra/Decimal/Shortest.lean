/-!
# Shortest decimals

An interval of magnitudes is given with one of its points. The shortest decimal is taken from the
coarsest decimal grid on which a neighbour of the point lies in the interval; of two such neighbours
the nearer one is taken. If any point of a grid lies in the interval, one of the two neighbours does,
so no decimal of fewer digits is in the interval.
-/

namespace ColumnAlgebra.Decimal
set_option autoImplicit false

/-- The magnitudes from `low` to `high` around `point`, all over `den`. -/
structure Interval where
  low : Nat
  point : Nat
  high : Nat
  den : Nat
  closed : Bool

namespace Interval

/-- `x / y` lies in the interval, whose ends count if it is closed. -/
def contains (r : Interval) (x y : Nat) : Bool :=
  if r.closed then r.low * y ≤ x * r.den && x * r.den ≤ r.high * y
  else r.low * y < x * r.den && x * r.den < r.high * y

/-- The exponent of the first digit of `point / den`. -/
def leadingExponent (r : Interval) : Int :=
  if r.den ≤ r.point then (Nat.toDigits 10 (r.point / r.den)).length - 1
  else -(Nat.toDigits 10 ((r.den - 1) / r.point)).length

/-- The multiple of `10 ^ k` that stands for the point on that grid. A tie between the neighbours goes
up, or else to the even one. -/
def onGrid? (r : Interval) (tieUp : Bool) (k : Int) : Option Nat :=
  let up := Nat.pow 10 k.toNat
  let down := Nat.pow 10 (-k).toNat
  let below := r.point * down / (r.den * up)
  let twice := 2 * (r.point * down)
  let middle := (2 * below + 1) * (r.den * up)
  match r.contains (below * up) down, r.contains ((below + 1) * up) down with
  | true, false => some below
  | false, true => some (below + 1)
  | false, false => none
  | true, true =>
    if twice < middle then some below
    else if middle < twice ∨ tieUp then some (below + 1)
    else some (below + below % 2)

/-- Digits and exponent of the shortest decimal. Seventeen digits tell all numbers of either kind
apart. A digit zero at the end comes from rounding nine up to ten, and goes into the exponent. -/
def shortest (r : Interval) (tieUp : Bool) : Nat × Int :=
  let grid (n : Nat) : Int := r.leadingExponent - n
  match (List.range 17).findSome? fun n => (r.onGrid? tieUp (grid n)).map (·, grid n) with
  | some (digits, k) => if digits % 10 = 0 then (digits / 10, k + 1) else (digits, k)
  | none => (r.point / r.den, 0)

end Interval
end ColumnAlgebra.Decimal
