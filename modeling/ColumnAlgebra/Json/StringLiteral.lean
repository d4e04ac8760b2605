import ColumnAlgebra.Json.Reader

/-!
# JSON strings

A quote, a backslash and the control characters are escaped, and every other character is written as
it is. A reader knows all escapes: a code point above the first plane may be written as two units,
which belong together, and a control character may not stand in a string as it is.
-/

namespace ColumnAlgebra.Json
set_option autoImplicit false

def letterEscapes : List (Char × Char) :=
  [('"', '"'), ('\\', '\\'), ('n', '\n'), ('r', '\r'), ('t', '\t'), ('b', '\x08'), ('f', '\x0c')]

def hexDigit (n : Nat) : Char := Nat.digitChar n

def escape (c : Char) : List Char :=
  match letterEscapes.find? (·.2 = c) with
  | some (letter, _) => ['\\', letter]
  | none =>
    if c.toNat < 0x20 then ['\\', 'u', '0', '0', hexDigit (c.toNat / 16), hexDigit (c.toNat % 16)]
    else [c]

def writeString (s : String) : List Char := '"' :: s.toList.flatMap escape ++ ['"']

def hexValue? (c : Char) : Option Nat :=
  if c.isDigit then some (c.toNat - '0'.toNat)
  else if 'a' ≤ c ∧ c ≤ 'f' then some (c.toNat - 'a'.toNat + 10)
  else if 'A' ≤ c ∧ c ≤ 'F' then some (c.toNat - 'A'.toNat + 10)
  else none

/-- A unit of sixteen bits in four hexadecimal digits. -/
def codeUnit : Reader Nat
  | a :: b :: c :: d :: cs => do
    let (a, b) := (← hexValue? a, ← hexValue? b)
    let (c, d) := (← hexValue? c, ← hexValue? d)
    pure (((a * 16 + b) * 16 + c) * 16 + d, cs)
  | _ => none

/-- The second half of a pair, written as an escape of its own. -/
def trailingUnit : Reader Nat
  | '\\' :: 'u' :: cs =>
    match codeUnit cs with
    | some (unit, rest) => if 0xdc00 ≤ unit ∧ unit < 0xe000 then some (unit, rest) else none
    | none => none
  | _ => none

def unicodeEscape : Reader Char := fun cs => do
  let (unit, rest) ← codeUnit cs
  if 0xd800 ≤ unit ∧ unit < 0xdc00 then
    let (trailing, rest) ← trailingUnit rest
    pure (Char.ofNat (0x10000 + (unit - 0xd800) * 0x400 + (trailing - 0xdc00)), rest)
  else if 0xdc00 ≤ unit ∧ unit < 0xe000 then none
  else pure (Char.ofNat unit, rest)

/-- One character of a string, as itself or as an escape. -/
def stringCharacter : Reader Char
  | '\\' :: 'u' :: cs => unicodeEscape cs
  | '\\' :: '/' :: cs => some ('/', cs)
  | '\\' :: c :: cs => (letterEscapes.find? (·.1 = c)).map fun (_, character) => (character, cs)
  | c :: cs => if c.toNat < 0x20 ∨ c = '\\' ∨ c = '"' then none else some (c, cs)
  | [] => none

def stringRest : Reader (List Char)
  | '"' :: rest => some ([], rest)
  | cs =>
    match stringCharacter cs with
    | some (c, rest) =>
      if rest.length < cs.length then (stringRest rest).map fun (s, r) => (c :: s, r) else none
    | none => none
  termination_by cs => cs.length

def readString : Reader String
  | '"' :: cs => (stringRest cs).map fun (s, rest) => (String.ofList s, rest)
  | _ => none

end ColumnAlgebra.Json
