/-!
# Readers of JSON text

A reader takes a value off the front of a text and leaves the rest, or refuses the text.
-/

namespace ColumnAlgebra.Json
set_option autoImplicit false

abbrev Reader (α : Type) := List Char → Option (α × List Char)

def isSpace (c : Char) : Bool := c = ' ' || c = '\n' || c = '\t' || c = '\r'

def skipSpace (cs : List Char) : List Char := cs.dropWhile isSpace

def word : List Char → Reader Unit
  | [], cs => some ((), cs)
  | w :: ws, c :: cs => if w = c then word ws cs else none
  | _ :: _, [] => none

/-- Takes one character after white space. -/
def mark (c : Char) : Reader Unit := fun cs => word [c] (skipSpace cs)

/-- A reader of a whole text leaves nothing but white space. -/
def whole {α : Type} (read : Reader α) (text : String) : Option α :=
  match read text.toList with
  | some (a, rest) => if skipSpace rest = [] then some a else none
  | none => none

theorem word_append (w cs : List Char) : word w (w ++ cs) = some ((), cs) := by
  induction w with
  | nil => rfl
  | cons c w ih => simpa [word] using ih

end ColumnAlgebra.Json
