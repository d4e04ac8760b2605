import ColumnAlgebra.Element.Basic

/-!
# Operators of the element types

Which operators a type has, and what they do to present values. A nested element applies the operator
of its integers, so that an empty element empties the result inside its slot.
-/

namespace ColumnAlgebra
set_option autoImplicit false

inductive BinaryOperator where
  | add
  | sub
  | mul
  | div
  | rem
  | bitAnd
  | bitOr
  | bitXor
  deriving DecidableEq

inductive UnaryOperator where
  | pos
  | neg
  | not
  deriving DecidableEq

inductive Comparison where
  | gt
  | lt
  | gtEq
  | ltEq
  deriving DecidableEq

inductive Connective where
  | and
  | or
  deriving DecidableEq

inductive CheckedOperator where
  | div
  | rem
  deriving DecidableEq

/-- The comparison made from a strict and a weak order. -/
def Comparison.holds {α : Type} (lt le : α → α → Bool) : Comparison → α → α → Bool
  | .gt, x, y => lt y x
  | .lt, x, y => lt x y
  | .gtEq, x, y => le y x
  | .ltEq, x, y => le x y

def Connective.apply : Connective → Bool → Bool → Bool
  | and, x, y => x && y
  | or, x, y => x || y

def FixedInt.binary {k : IntKind} :
    BinaryOperator → FixedInt k → FixedInt k → Except Fault (FixedInt k)
  | .add, x, y => x.add y
  | .sub, x, y => x.sub y
  | .mul, x, y => x.mul y
  | .div, x, y => x.div y
  | .rem, x, y => x.rem y
  | .bitAnd, x, y => .ok (x.bitAnd y)
  | .bitOr, x, y => .ok (x.bitOr y)
  | .bitXor, x, y => .ok (x.bitXor y)

def FixedInt.checked {k : IntKind} : CheckedOperator → FixedInt k → FixedInt k → Option (FixedInt k)
  | .div, x, y => x.checkedDiv y
  | .rem, x, y => x.checkedRem y

def FloatKind.binary? (k : FloatKind) : BinaryOperator → Option (k.Number → k.Number → k.Number)
  | .add => some k.add
  | .sub => some k.sub
  | .mul => some k.mul
  | .div => some k.div
  | .rem => some k.rem
  | .bitAnd | .bitOr | .bitXor => none

def FloatKind.checked (k : FloatKind) : CheckedOperator → k.Number → k.Number → k.Number
  | .div => k.div
  | .rem => k.rem

def BinaryOperator.onBool? : BinaryOperator → Option (Bool → Bool → Bool)
  | bitAnd => some and
  | bitOr => some or
  | bitXor => some xor
  | _ => none

namespace ElementType

def binary? : (t : ElementType) → BinaryOperator →
    Option (t.Value → t.Value → Except Fault t.Value)
  | int _, op => some (FixedInt.binary op)
  | float k, op => (k.binary? op).map fun f x y => .ok (f x y)
  | bool, op => op.onBool?.map fun f x y => .ok (f x y)
  | text, .add => some fun x y => .ok (String.append x y)
  | nested, op => some (Nullable.zipWithM (FixedInt.binary op))
  | _, _ => none

def unary? : (t : ElementType) → UnaryOperator → Option (t.Value → Except Fault t.Value)
  | _, .pos => some .ok
  | int k, .neg => if k.signed then some FixedInt.neg else none
  | float k, .neg => some fun x => .ok (k.neg x)
  | nested, .neg => some (Nullable.mapM FixedInt.neg)
  | int _, .not => some fun x => .ok (FixedInt.complement x)
  | bool, .not => some fun (x : Bool) => .ok (!x)
  | nested, .not => some fun x => .ok (Nullable.map FixedInt.complement x)
  | _, _ => none

/-- A number is truthy unless it equals zero. -/
def truthy? : (t : ElementType) → Option (t.Value → Bool)
  | int _ => some fun x => FixedInt.toInt x != 0
  | float k => some fun x => !k.beq x k.zero
  | bool => some id
  | _ => none

/-- Characters stand in the order of their code points, texts in the order of their first difference,
and `false` before `true`. -/
def compare? : (t : ElementType) → Comparison → Option (t.Value → t.Value → Bool)
  | int _, c =>
    some (c.holds (fun x y => decide (FixedInt.toInt x < FixedInt.toInt y))
      fun x y => decide (FixedInt.toInt x ≤ FixedInt.toInt y))
  | float k, c => some (c.holds k.lt k.le)
  | bool, c =>
    some (c.holds (fun x y => decide (Bool.toNat x < Bool.toNat y))
      fun x y => decide (Bool.toNat x ≤ Bool.toNat y))
  | char, c =>
    some (c.holds (fun x y => decide (Char.toNat x < Char.toNat y))
      fun x y => decide (Char.toNat x ≤ Char.toNat y))
  | text, c =>
    some (c.holds (fun (x y : String) => decide (x < y)) fun (x y : String) => decide (x ≤ y))
  | nested, _ => none

def connect? (t : ElementType) (c : Connective) : Option (t.Value → t.Value → Bool) :=
  t.truthy?.map fun truthy x y => c.apply (truthy x) (truthy y)

def checked? : (t : ElementType) → CheckedOperator → Option (t.Value → t.Value → Option t.Value)
  | int _, op => some (FixedInt.checked op)
  | float k, op => some fun x y => some (k.checked op x y)
  | _, _ => none

end ElementType
end ColumnAlgebra
