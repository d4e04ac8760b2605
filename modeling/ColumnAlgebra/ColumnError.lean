import ColumnAlgebra.Nullable

/-!
# Refused accesses

A column without slots has no first and no last slot, an index may be out of range, and an empty slot
has no value to give.
-/

namespace ColumnAlgebra
set_option autoImplicit false

inductive ColumnError where
  | emptyColumn
  | indexError (index : String) (length : Nat)
  | valueError (got expected : String)
  deriving DecidableEq

namespace ColumnError

def message : ColumnError → String
  | emptyColumn => "column is empty"
  | indexError index length => s!"index {index} out of range for column of length {length}"
  | valueError got expected => s!"we received {got} but expected {expected}"

/-- The message of a failure, if it is one. -/
def messageOf {α : Type} : Except ColumnError α → Option String
  | .error e => some e.message
  | .ok _ => none

end ColumnError

def Nullable.tryValue {α : Type} : Nullable α → Except ColumnError α
  | .value a => .ok a
  | .null => .error (.valueError nullToken "a value")

end ColumnAlgebra
