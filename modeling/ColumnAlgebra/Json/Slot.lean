import ColumnAlgebra.Column.Basic
import ColumnAlgebra.Json.StringLiteral

/-!
# JSON of slots and columns

An empty slot is the string `Null`, a present one an object whose one member `Value` is its value, and
a column is an array of slots. A reader also takes an object with the member `Null` that is null.
-/

namespace ColumnAlgebra.Json
set_option autoImplicit false

variable {α : Type}

def writeSlot (write : α → List Char) : Nullable α → List Char
  | .null => "\"Null\"".toList
  | .value a => '\x7b' :: "\"Value\":".toList ++ write a ++ ['\x7d']

def writeSlots (write : α → List Char) : List (Nullable α) → List Char
  | [] => []
  | [s] => writeSlot write s
  | s :: rest => writeSlot write s ++ ',' :: writeSlots write rest

def writeColumn (write : α → List Char) (c : Column α) : List Char :=
  '[' :: writeSlots write c.slots ++ [']']

/-- The member of an object, up to the closing brace. -/
def member (read : Reader α) : Reader (Nullable α) := fun cs => do
  let (key, cs) ← readString (skipSpace cs)
  let (_, cs) ← mark ':' cs
  if key = "Null" then
    let (_, cs) ← word "null".toList (skipSpace cs)
    pure (.null, cs)
  else if key = "Value" then
    let (a, cs) ← read (skipSpace cs)
    pure (.value a, cs)
  else none

def readSlot (read : Reader α) : Reader (Nullable α) := fun cs =>
  match skipSpace cs with
  | '\x7b' :: cs => do
    let (s, cs) ← member read cs
    let (_, cs) ← mark '\x7d' cs
    pure (s, cs)
  | cs => do
    let (s, cs) ← readString cs
    if s = "Null" then pure (.null, cs) else none

/-- Slots up to the closing bracket, at least one. -/
def readSlots (read : Reader α) (cs : List Char) : Option (List (Nullable α) × List Char) :=
  match readSlot read cs with
  | some (s, rest) =>
    match skipSpace rest with
    | ']' :: rest => some ([s], rest)
    | ',' :: rest =>
      if rest.length < cs.length then
        (readSlots read rest).map fun (slots, rest) => (s :: slots, rest)
      else none
    | _ => none
  | none => none
  termination_by cs.length

def readColumn (read : Reader α) : Reader (Column α) := fun cs => do
  let (_, cs) ← mark '[' cs
  match skipSpace cs with
  | ']' :: rest => pure (.empty, rest)
  | _ =>
    let (slots, rest) ← readSlots read cs
    pure (⟨slots⟩, rest)

end ColumnAlgebra.Json
