import ColumnAlgebra.Fault
import ColumnAlgebra.FixedInt.Basic

/-!
# Exact arithmetic on fixed width

A sum, difference, product or negation is the exact integer, or a fault where the kind has no word for
it. A quotient is cut toward zero and a remainder has the sign of the dividend; both fail at a zero
divisor and where the quotient is out of range, which happens for the least integer over -1 alone. The
checked operations have no result there.
-/

namespace ColumnAlgebra.FixedInt
set_option autoImplicit false

variable {k : IntKind}

/-- The word for an exact result, or the fault. -/
def exact (fault : Fault) (n : Int) : Except Fault (FixedInt k) :=
  match ofInt? k n with
  | some x => .ok x
  | none => .error fault

def add (x y : FixedInt k) : Except Fault (FixedInt k) := exact .addOverflow (x.toInt + y.toInt)

def sub (x y : FixedInt k) : Except Fault (FixedInt k) := exact .subOverflow (x.toInt - y.toInt)

def mul (x y : FixedInt k) : Except Fault (FixedInt k) := exact .mulOverflow (x.toInt * y.toInt)

def neg (x : FixedInt k) : Except Fault (FixedInt k) := exact .negOverflow (-x.toInt)

def div (x y : FixedInt k) : Except Fault (FixedInt k) :=
  if y.toInt = 0 then .error .divByZero else exact .divOverflow (x.toInt.tdiv y.toInt)

def rem (x y : FixedInt k) : Except Fault (FixedInt k) :=
  if y.toInt = 0 then .error .remByZero
  else if k.signed ∧ x.toInt = k.minInt ∧ y.toInt = -1 then .error .remOverflow
  else .ok (wrap k (x.toInt.tmod y.toInt))

/-- Neither quotient nor remainder is defined. -/
def Indivisible (x y : FixedInt k) : Prop :=
  y.toInt = 0 ∨ (k.signed ∧ x.toInt = k.minInt ∧ y.toInt = -1)

instance (x y : FixedInt k) : Decidable (Indivisible x y) :=
  inferInstanceAs (Decidable (_ ∨ _))

def checkedDiv (x y : FixedInt k) : Option (FixedInt k) :=
  if Indivisible x y then none else some (wrap k (x.toInt.tdiv y.toInt))

def checkedRem (x y : FixedInt k) : Option (FixedInt k) :=
  if Indivisible x y then none else some (wrap k (x.toInt.tmod y.toInt))

def bitAnd (x y : FixedInt k) : FixedInt k := ⟨x.word &&& y.word⟩

def bitOr (x y : FixedInt k) : FixedInt k := ⟨x.word ||| y.word⟩

def bitXor (x y : FixedInt k) : FixedInt k := ⟨x.word ^^^ y.word⟩

def complement (x : FixedInt k) : FixedInt k := ⟨~~~x.word⟩

@[simp] theorem complement_complement (x : FixedInt k) : x.complement.complement = x := by
  simp [complement]

theorem toInt_of_exact {fault : Fault} {n : Int} {x : FixedInt k}
    (h : exact fault n = .ok x) : x.toInt = n := by
  unfold exact at h
  split at h
  · cases h
    exact toInt_of_ofInt? ‹_›
  · cases h

end ColumnAlgebra.FixedInt
