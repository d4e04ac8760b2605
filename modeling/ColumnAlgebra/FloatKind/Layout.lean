import ColumnAlgebra.Decimal.Integer
import ColumnAlgebra.Decimal.Shortest
import ColumnAlgebra.FloatKind.Basic

/-!
# Decimal text of floating point numbers

A number is written with the fewest digits that read back as the same number of its kind. A layout
says where positional notation ends, what follows a whole number, whether an exponent shows that it is
not negative, and how the values without digits are spelled.
-/

namespace ColumnAlgebra
set_option autoImplicit false

structure FloatLayout where
  /-- The exponents of the first digit for which the text is positional; all, if absent. -/
  positional : Option (Int × Int)
  wholeSuffix : String
  /-- A plus sign stands before an exponent that is not negative. -/
  exponentPlus : Bool
  tieUp : Bool
  infinity : String
  negativeInfinity : String
  nan : String

namespace FloatKind

/-- The magnitudes that round to `m * 2 ^ q`. Below a power of two the numbers lie twice as dense. -/
def roundingInterval (k : FloatKind) (m : Nat) (q : Int) : Decimal.Interval :=
  let scale := Nat.pow 2 (q - 2).toNat
  let below := if m = Nat.pow 2 (k.precision - 1) ∧ k.leastExponent < q then 1 else 2
  { low := (4 * m - below) * scale
    point := 4 * m * scale
    high := (4 * m + 2) * scale
    den := Nat.pow 2 (2 - q).toNat
    closed := m % 2 == 0 }

end FloatKind

namespace FloatLayout

/-- `digits * 10 ^ exponent` with a decimal point where the text needs one. -/
def positionalText (l : FloatLayout) (digits : List Char) (exponent : Int) : List Char :=
  let point := digits.length + exponent
  if 0 ≤ exponent then digits ++ List.replicate exponent.toNat '0' ++ l.wholeSuffix.toList
  else if 0 < point then digits.take point.toNat ++ '.' :: digits.drop point.toNat
  else '0' :: '.' :: (List.replicate (-point).toNat '0' ++ digits)

def exponentText (l : FloatLayout) (exponent : Int) : List Char :=
  (if l.exponentPlus ∧ 0 ≤ exponent then ['+'] else []) ++ Decimal.ofInt exponent

/-- One digit before the point, and the exponent of that digit. -/
def scientificText (l : FloatLayout) (digits : List Char) (leading : Int) : List Char :=
  let fraction := if digits.length ≤ 1 then [] else '.' :: digits.drop 1
  digits.take 1 ++ fraction ++ 'e' :: l.exponentText leading

def magnitudeText (l : FloatLayout) (k : FloatKind) (m : Nat) (q : Int) : List Char :=
  if m = 0 then '0' :: l.wholeSuffix.toList
  else
    let (n, exponent) := (k.roundingInterval m q).shortest l.tieUp
    let digits := Nat.toDigits 10 n
    let leading := exponent + digits.length - 1
    let isPositional := match l.positional with
      | none => true
      | some (least, greatest) => least ≤ leading && leading ≤ greatest
    if isPositional then l.positionalText digits exponent else l.scientificText digits leading

def text (l : FloatLayout) (k : FloatKind) (x : k.Number) : String :=
  match k.parts x with
  | .nan => l.nan
  | .infinite false => l.infinity
  | .infinite true => l.negativeInfinity
  | .finite negative m q =>
    String.ofList ((if negative then ['-'] else []) ++ l.magnitudeText k m q)

end FloatLayout
end ColumnAlgebra
