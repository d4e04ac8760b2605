import ColumnAlgebra.Element.Operators

/-!
# Logical connectives of two element types

The operands of a connective may have different types, as each is read for its truth alone.
-/

namespace ColumnAlgebra
set_option autoImplicit false

def Connective.between {α β : Type} (c : Connective) (left : α → Bool) (right : β → Bool) (a : α)
    (b : β) : Bool :=
  c.apply (left a) (right b)

/-- A slot and a slot of truth values, connected in both orders. -/
structure Connection where
  forward : Nullable Bool
  reversed : Nullable Bool
  /-- The connective itself, where both slots are present. -/
  applied : Option Bool

def Nullable.connect {α : Type} (c : Connective) (truthy : α → Bool) (s : Nullable α)
    (b : Nullable Bool) : Connection :=
  { forward := s.zipWith (c.between truthy id) b
    reversed := b.zipWith (c.between id truthy) s
    applied := match s, b with
      | .value x, .value y => some (c.between truthy id x y)
      | _, _ => none }

end ColumnAlgebra
