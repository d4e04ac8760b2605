import ColumnAlgebra.FloatKind.Rounding

/-!
# Arithmetic of floating point numbers

Every operation has a result. A remainder is exact: it is what is left of the dividend's magnitude
after whole multiples of the divisor's, with the dividend's sign.
-/

namespace ColumnAlgebra.FloatKind
set_option autoImplicit false

def add : (k : FloatKind) → k.Number → k.Number → k.Number
  | single, x, y => Float32.add x y
  | double, x, y => Float.add x y

def sub : (k : FloatKind) → k.Number → k.Number → k.Number
  | single, x, y => Float32.sub x y
  | double, x, y => Float.sub x y

def mul : (k : FloatKind) → k.Number → k.Number → k.Number
  | single, x, y => Float32.mul x y
  | double, x, y => Float.mul x y

def div : (k : FloatKind) → k.Number → k.Number → k.Number
  | single, x, y => Float32.div x y
  | double, x, y => Float.div x y

def neg : (k : FloatKind) → k.Number → k.Number
  | single, x => Float32.neg x
  | double, x => Float.neg x

/-- No number equals a NaN, and the two zeros are equal. -/
def beq : (k : FloatKind) → k.Number → k.Number → Bool
  | single, x, y => Float32.beq x y
  | double, x, y => Float.beq x y

def lt : (k : FloatKind) → k.Number → k.Number → Bool
  | single, x, y => Float32.lt x y
  | double, x, y => Float.lt x y

def le : (k : FloatKind) → k.Number → k.Number → Bool
  | single, x, y => Float32.le x y
  | double, x, y => Float.le x y

def zero (k : FloatKind) : k.Number := k.ofBits 0

/-- Counts `m * 2 ^ q` in units of `2 ^ least`. -/
def atScale (least : Int) (m : Nat) (q : Int) : Nat := m * Nat.pow 2 (q - least).toNat

def rem (k : FloatKind) (x y : k.Number) : k.Number :=
  match k.parts x, k.parts y with
  | .finite negative m q, .finite _ n p =>
    if n = 0 then k.nan
    else
      let least := min q p
      let rest := atScale least m q % atScale least n p
      let (num, den) := inUnits rest 1 (-least)
      k.nearest negative num den
  | .finite .., .infinite _ => x
  | _, _ => k.nan

end ColumnAlgebra.FloatKind
