import ColumnAlgebra.ColumnError

/-!
# Everything about one slot

The answers of a slot to every question that can be asked of a slot alone, given the text of its value
and a value to take in its place.
-/

namespace ColumnAlgebra
set_option autoImplicit false

structure Inspection (α : Type) where
  isNull : Bool
  hasValue : Bool
  value : Option α
  roundTrip : Nullable α
  tryValue : Except ColumnError α
  errorMessage : Option String
  valueOr : α
  textLength : Option Nat
  mapped : Nullable String
  zipped : Nullable String
  zippedWithNull : Nullable String
  display : String
  padded : String

namespace Nullable

variable {α : Type}

/-- A width, an alignment or a precision asked for leaves the text as it is. -/
def padded (text : α → String) (s : Nullable α) : String :=
  String.join (List.replicate 3 ("[" ++ s.display text ++ "]"))

def inspect (text : α → String) (default : α) (s : Nullable α) : Inspection α :=
  let join (a b : α) := text a ++ "|" ++ text b
  { isNull := s.isNull
    hasValue := s.hasValue
    value := s.toOption
    roundTrip := ofOption s.toOption
    tryValue := s.tryValue
    errorMessage := ColumnError.messageOf s.tryValue
    valueOr := s.valueOr default
    textLength := s.toOption.map fun a => (text a).utf8ByteSize
    mapped := s.map fun a => "<" ++ text a ++ ">"
    zipped := s.zipWith join (.value default)
    zippedWithNull := s.zipWith join null
    display := s.display text
    padded := s.padded text }

end Nullable
end ColumnAlgebra
