/-!
# Faults

Why an operation has no result: the exact value does not fit, a divisor is zero, or a column is asked
to make room for more slots than memory can address.
-/

namespace ColumnAlgebra
set_option autoImplicit false

inductive Fault where
  | addOverflow
  | subOverflow
  | mulOverflow
  | negOverflow
  | divByZero
  | divOverflow
  | remByZero
  | remOverflow
  | capacityOverflow
  deriving DecidableEq

def Fault.message : Fault → String
  | addOverflow => "attempt to add with overflow"
  | subOverflow => "attempt to subtract with overflow"
  | mulOverflow => "attempt to multiply with overflow"
  | negOverflow => "attempt to negate with overflow"
  | divByZero => "attempt to divide by zero"
  | divOverflow => "attempt to divide with overflow"
  | remByZero => "attempt to calculate the remainder with a divisor of zero"
  | remOverflow => "attempt to calculate the remainder with overflow"
  | capacityOverflow => "capacity overflow"

end ColumnAlgebra
