import ColumnAlgebra.Decimal.Integer
import ColumnAlgebra.FloatKind.Rounding

/-!
# Reading decimal text as a floating point number

A decimal is an optional sign, digits with an optional point, and an optional exponent. It reads as the
nearest number of the kind.
-/

namespace ColumnAlgebra.FloatKind
set_option autoImplicit false

/-- A leading sign, and the text after it. -/
def splitSign : List Char → Bool × List Char
  | '-' :: cs => (true, cs)
  | '+' :: cs => (false, cs)
  | cs => (false, cs)

def exponent? : List Char → Option Int
  | [] => some 0
  | c :: cs =>
    if c = 'e' ∨ c = 'E' then
      let (negative, digits) := splitSign cs
      (Decimal.digits? digits).map fun n : Nat => if negative then -(n : Int) else n
    else none

def ofDigits? (k : FloatKind) (negative : Bool) (cs : List Char) : Option k.Number :=
  let whole := cs.takeWhile Char.isDigit
  let rest := cs.drop whole.length
  let (fraction, rest) := match rest with
    | '.' :: tail => (tail.takeWhile Char.isDigit, tail.dropWhile Char.isDigit)
    | _ => ([], rest)
  match Decimal.digits? (whole ++ fraction), exponent? rest with
  | some digits, some exponent => some (k.ofDecimal negative digits (exponent - fraction.length))
  | _, _ => none

def ofText? (k : FloatKind) (text : String) : Option k.Number :=
  match splitSign text.toList with
  | (negative, cs) =>
    if cs = "inf".toList then some (k.infinity negative)
    else if cs = "NaN".toList then some k.nan
    else k.ofDigits? negative cs

end ColumnAlgebra.FloatKind
