import ColumnAlgebra.Nullable

/-!
# The null literal

The literal stands for an empty slot of whatever type is asked for. There is one of it, so it equals
itself and is not below itself.
-/

namespace ColumnAlgebra
set_option autoImplicit false

/-- The version of the library. -/
def version : String := "0.1.0"

inductive NullLiteral where
  | null
  deriving DecidableEq, Inhabited

namespace NullLiteral

def display (_ : NullLiteral) : String := Nullable.nullToken

def debug (_ : NullLiteral) : String := "NullValue"

def slot {α : Type} (_ : NullLiteral) : Nullable α := .null

def lt (_ _ : NullLiteral) : Bool := false

end NullLiteral
end ColumnAlgebra
