import ColumnAlgebra.Decimal.Integer
import ColumnAlgebra.FixedInt.Basic
import ColumnAlgebra.FloatKind.Arithmetic
import ColumnAlgebra.FloatKind.Layout
import ColumnAlgebra.Json.Reader

/-!
# JSON numbers

An integer is a literal without fraction and exponent in the range of its kind. A floating point
number is read from any literal: an integer goes to the nearest number, and any other literal gives up
to sixty-four bits of its digits and is then scaled by one power of ten.
-/

namespace ColumnAlgebra.Json
set_option autoImplicit false

def digits : Reader (List Char) := fun cs =>
  match cs.takeWhile Char.isDigit with
  | [] => none
  | d :: ds => if d = '0' ∧ ds ≠ [] then none else some (d :: ds, cs.dropWhile Char.isDigit)

def minus : List Char → Bool × List Char
  | '-' :: cs => (true, cs)
  | cs => (false, cs)

/-- A zero has no sign, except in the widest signed kind. -/
def readInt (k : IntKind) : Reader (FixedInt k) := fun cs => do
  let (negative, cs) := minus cs
  let (ds, rest) ← digits cs
  let n := Nat.ofDigitChars 10 ds 0
  if negative ∧ n = 0 ∧ k ≠ ⟨true, .w128⟩ then none
  else
    let x ← FixedInt.ofInt? k (if negative then -(n : Int) else n)
    pure (x, rest)

/-- Appends digits to a significand as long as it fits sixty-four bits, and counts those appended. -/
def absorb (significand : Nat) : List Char → Nat × Nat
  | [] => (significand, 0)
  | d :: ds =>
    let next := significand * 10 + (d.toNat - '0'.toNat)
    if next < Nat.pow 2 64 then
      let (result, count) := absorb next ds
      (result, count + 1)
    else (significand, 0)

/-- The digits after a point, if there is one; at least one digit follows it. -/
def fraction : Reader (List Char)
  | '.' :: cs =>
    match cs.takeWhile Char.isDigit with
    | [] => none
    | ds => some (ds, cs.dropWhile Char.isDigit)
  | cs => some ([], cs)

def exponent : Reader (Option Int)
  | c :: cs =>
    if c = 'e' ∨ c = 'E' then
      let (negative, cs) := match cs with
        | '-' :: cs => (true, cs)
        | '+' :: cs => (false, cs)
        | cs => (false, cs)
      match cs.takeWhile Char.isDigit with
      | [] => none
      | ds =>
        let n : Int := Nat.ofDigitChars 10 ds 0
        some (some (if negative then -n else n), cs.dropWhile Char.isDigit)
    else some (none, c :: cs)
  | [] => some (none, [])

abbrev Double := FloatKind.double.Number

def powerOfTen (n : Nat) : Double := FloatKind.double.ofDecimal false 1 n

/-- Divides by `10 ^ n`, in steps where the power is too large to be a number. -/
def scaleDown (x : Double) (n : Nat) : Double :=
  if n ≤ 308 then FloatKind.double.div x (powerOfTen n)
  else if FloatKind.double.beq x FloatKind.double.zero then x
  else scaleDown (FloatKind.double.div x (powerOfTen 308)) (n - 308)
  termination_by n

/-- Multiplies by `10 ^ n`, unless the product is too large to be a number. -/
def scaleUp? (x : Double) (n : Nat) : Option Double :=
  if n ≤ 308 then
    let y := FloatKind.double.mul x (powerOfTen n)
    match FloatKind.double.parts y with
    | .finite .. => some y
    | _ => none
  else if FloatKind.double.beq x FloatKind.double.zero then some x
  else none

def scale? (significand : Nat) (e : Int) : Option Double :=
  let x := FloatKind.double.nearest false significand 1
  if 0 ≤ e then scaleUp? x e.toNat else some (scaleDown x (-e).toNat)

def narrow : (k : FloatKind) → Double → k.Number
  | .single, x => Float.toFloat32 x
  | .double, x => x

/-- The magnitude of a literal with a fraction, an exponent or more than sixty-four bits. An exponent
of more than thirty-one bits makes the number zero or too large. -/
def magnitude? (whole fraction : List Char) (exponent : Option Int) : Option Double :=
  let (significand, kept) := absorb 0 whole
  let (significand, places) := absorb significand fraction
  let e := exponent.getD 0
  if e.natAbs < Nat.pow 2 31 then scale? significand (whole.length - kept - places + e)
  else if significand ≠ 0 ∧ 0 < e then none
  else some FloatKind.double.zero

def signed (k : FloatKind) (negative : Bool) (x : k.Number) : k.Number :=
  if negative then k.neg x else x

def integerLimit (negative : Bool) : Nat :=
  if negative then Nat.pow 2 63 else Nat.pow 2 64 - 1

def readFloat (k : FloatKind) : Reader k.Number := fun cs => do
  let (negative, cs) := minus cs
  let (whole, cs) ← digits cs
  let (part, cs) ← fraction cs
  let (power, cs) ← exponent cs
  let n := Nat.ofDigitChars 10 whole 0
  if part = [] ∧ power = none ∧ n ≤ integerLimit negative then
    pure (k.nearest negative n 1, cs)
  else
    let x ← magnitude? whole part power
    pure (narrow k (signed .double negative x), cs)

/-- A number has a point or an exponent, and the exponent has a sign; what is no number is null. -/
def floatLayout (k : FloatKind) : FloatLayout :=
  { positional := some (match k with
      | .single => (-6, 12)
      | .double => (-5, 15))
    wholeSuffix := ".0"
    exponentPlus := true
    tieUp := false
    infinity := "null"
    negativeInfinity := "null"
    nan := "null" }

end ColumnAlgebra.Json
