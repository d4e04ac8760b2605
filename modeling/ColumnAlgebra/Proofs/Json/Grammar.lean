import Mathlib.Data.List.Forall2
import ColumnAlgebra.Json.Element

/-!
# JSON, and the documents that stand for columns

A spelling relates a text to what stands at its front and to the rest behind it. The relations below say
what is a spelling of a string, of a number and of any JSON value, without saying how it is read, and then
which values stand for the elements, slots and columns of an element type.
-/

namespace ColumnAlgebra
set_option autoImplicit false

namespace Json

/-- The text begins with a spelling of the value and goes on with the rest. -/
abbrev Spelling (α : Type) := List Char → α → List Char → Prop

/-- White space, possibly none, in front of the rest. -/
inductive Spaces : List Char → List Char → Prop where
  | nil (cs : List Char) : Spaces cs cs
  | cons {c : Char} {cs rest : List Char} (space : c ∈ [' ', '\n', '\r', '\t'])
      (more : Spaces cs rest) : Spaces (c :: cs) rest

section Strings

/-- The character is the digit of that value, in either case. -/
def HexDigit (c : Char) (v : Nat) : Prop :=
  "0123456789abcdef".toList[v]? = some c ∨ "0123456789ABCDEF".toList[v]? = some c

/-- Four hexadecimal digits. -/
inductive HexText : Spelling Nat where
  | mk {a b c d : Char} {p q r s : Nat} {rest : List Char} (ha : HexDigit a p) (hb : HexDigit b q)
      (hc : HexDigit c r) (hd : HexDigit d s) :
      HexText (a :: b :: c :: d :: rest) (p * 4096 + q * 256 + r * 16 + s) rest

/-- The characters that are written as a backslash and a sign. -/
def signEscapes : List (Char × Char) :=
  [('"', '"'), ('\\', '\\'), ('/', '/'), ('b', '\x08'), ('f', '\x0c'), ('n', '\n'), ('r', '\r'),
    ('t', '\t')]

/-- One character between the quotes. A code point above the first plane is written as it is or as the
two halves of a pair, and half a pair is no character. -/
inductive CharacterText : Spelling Char where
  | plain {c : Char} {rest : List Char} (control : 0x20 ≤ c.toNat) (quote : c ≠ '"')
      (backslash : c ≠ '\\') : CharacterText (c :: rest) c rest
  | sign {sign c : Char} {rest : List Char} (escape : (sign, c) ∈ signEscapes) :
      CharacterText ('\\' :: sign :: rest) c rest
  | unit {c : Char} {n : Nat} {cs rest : List Char} (hex : HexText cs n rest) (code : c.toNat = n) :
      CharacterText ('\\' :: 'u' :: cs) c rest
  | pair {c : Char} {high low : Nat} {cs cs' rest : List Char}
      (first : HexText cs high ('\\' :: 'u' :: cs')) (second : HexText cs' low rest)
      (isHigh : 0xd800 ≤ high ∧ high < 0xdc00) (isLow : 0xdc00 ≤ low ∧ low < 0xe000)
      (code : c.toNat = 0x10000 + (high - 0xd800) * 0x400 + (low - 0xdc00)) :
      CharacterText ('\\' :: 'u' :: cs) c rest

/-- Characters up to the closing quote. -/
inductive CharactersText : Spelling (List Char) where
  | nil (rest : List Char) : CharactersText ('"' :: rest) [] rest
  | cons {c : Char} {s cs cs' rest : List Char} (first : CharacterText cs c cs')
      (more : CharactersText cs' s rest) : CharactersText cs (c :: s) rest

inductive StringText : Spelling String where
  | mk {s : String} {cs rest : List Char} (characters : CharactersText cs s.toList rest) :
      StringText ('"' :: cs) s rest

end Strings

section Numbers

/-- A number as it is written: its sign, the digits before a point and all that follows them. -/
structure NumberLiteral where
  negative : Bool
  whole : Nat
  suffix : List Char

def NumberLiteral.toInt (l : NumberLiteral) : Int := if l.negative then -l.whole else l.whole

/-- Decimal digits of a natural, with no zero in front of others. -/
structure IsDigits (ds : List Char) (n : Nat) : Prop where
  ne_nil : ds ≠ []
  isDigit : ∀ d ∈ ds, d.isDigit = true
  leading : ds.head? = some '0' → ds = ['0']
  value : Nat.ofDigitChars 10 ds 0 = n

inductive IsFraction : List Char → Prop where
  | none : IsFraction []
  | digits {ds : List Char} (ne_nil : ds ≠ []) (isDigit : ∀ d ∈ ds, d.isDigit = true) :
      IsFraction ('.' :: ds)

inductive IsExponent : List Char → Prop where
  | none : IsExponent []
  | digits {e : Char} {sign ds : List Char} (letter : e ∈ ['e', 'E'])
      (signs : sign ∈ [[], ['+'], ['-']]) (ne_nil : ds ≠ []) (isDigit : ∀ d ∈ ds, d.isDigit = true) :
      IsExponent (e :: sign ++ ds)

inductive NumberText : Spelling NumberLiteral where
  | mk {ds fraction exponent rest : List Char} {n : Nat} (negative : Bool) (digits : IsDigits ds n)
      (isFraction : IsFraction fraction) (isExponent : IsExponent exponent) :
      NumberText ((if negative then ['-'] else []) ++ (ds ++ (fraction ++ exponent ++ rest)))
        ⟨negative, n, fraction ++ exponent⟩ rest

end Numbers

/-- A JSON value. The members of an object are in the order they are written in, and a key may be there
more than once. -/
inductive Tree where
  | null
  | bool (b : Bool)
  | number (l : NumberLiteral)
  | string (s : String)
  | array (elements : List Tree)
  | object (members : List (String × Tree))

mutual

inductive ValueText : List Char → Tree → List Char → Prop where
  | null (rest : List Char) : ValueText ('n' :: 'u' :: 'l' :: 'l' :: rest) .null rest
  | boolTrue (rest : List Char) : ValueText ('t' :: 'r' :: 'u' :: 'e' :: rest) (.bool true) rest
  | boolFalse (rest : List Char) :
      ValueText ('f' :: 'a' :: 'l' :: 's' :: 'e' :: rest) (.bool false) rest
  | number {l : NumberLiteral} {cs rest : List Char} (text : NumberText cs l rest) :
      ValueText cs (.number l) rest
  | string {s : String} {cs rest : List Char} (text : StringText cs s rest) :
      ValueText cs (.string s) rest
  | emptyArray {cs rest : List Char} (close : Spaces cs (']' :: rest)) :
      ValueText ('[' :: cs) (.array []) rest
  | array {es : List Tree} {cs rest : List Char} (elements : ElementsText cs es rest) :
      ValueText ('[' :: cs) (.array es) rest
  | emptyObject {cs rest : List Char} (close : Spaces cs ('\x7d' :: rest)) :
      ValueText ('\x7b' :: cs) (.object []) rest
  | object {ms : List (String × Tree)} {cs rest : List Char} (members : MembersText cs ms rest) :
      ValueText ('\x7b' :: cs) (.object ms) rest

/-- One or more values with commas between them, up to the closing bracket. -/
inductive ElementsText : List Char → List Tree → List Char → Prop where
  | last {e : Tree} {cs cs₁ cs₂ rest : List Char} (spaces : Spaces cs cs₁)
      (text : ValueText cs₁ e cs₂) (close : Spaces cs₂ (']' :: rest)) : ElementsText cs [e] rest
  | cons {e : Tree} {es : List Tree} {cs cs₁ cs₂ cs₃ rest : List Char} (spaces : Spaces cs cs₁)
      (text : ValueText cs₁ e cs₂) (comma : Spaces cs₂ (',' :: cs₃)) (more : ElementsText cs₃ es rest) :
      ElementsText cs (e :: es) rest

/-- One or more members with commas between them, up to the closing brace. -/
inductive MembersText : List Char → List (String × Tree) → List Char → Prop where
  | last {key : String} {e : Tree} {cs cs₁ cs₂ cs₃ cs₄ cs₅ rest : List Char} (spaces : Spaces cs cs₁)
      (name : StringText cs₁ key cs₂) (colon : Spaces cs₂ (':' :: cs₃)) (spaces' : Spaces cs₃ cs₄)
      (text : ValueText cs₄ e cs₅) (close : Spaces cs₅ ('\x7d' :: rest)) :
      MembersText cs [(key, e)] rest
  | cons {key : String} {e : Tree} {ms : List (String × Tree)}
      {cs cs₁ cs₂ cs₃ cs₄ cs₅ cs₆ rest : List Char} (spaces : Spaces cs cs₁)
      (name : StringText cs₁ key cs₂) (colon : Spaces cs₂ (':' :: cs₃)) (spaces' : Spaces cs₃ cs₄)
      (text : ValueText cs₄ e cs₅) (comma : Spaces cs₅ (',' :: cs₆)) (more : MembersText cs₆ ms rest) :
      MembersText cs ((key, e) :: ms) rest

end

/-- The text is one JSON value with white space around it. -/
def DocumentText (text : String) (j : Tree) : Prop :=
  ∃ cs rest, Spaces text.toList cs ∧ ValueText cs j rest ∧ Spaces rest []

/-- What the values of a type look like in JSON. -/
abbrev Form (α : Type) := Tree → α → Prop

/-- The integer of a literal without fraction and exponent; a zero has no sign, except in the widest
signed kind. -/
inductive IntForm (k : IntKind) : Form (FixedInt k) where
  | mk {l : NumberLiteral} {x : FixedInt k} (integer : l.suffix = []) (value : x.toInt = l.toInt)
      (zero : l.negative = true ∧ l.whole = 0 → k = ⟨true, .w128⟩) : IntForm k (.number l) x

/-- An empty slot is the string `Null` or an object whose one member `Null` is null, and a present one an
object whose one member is `Value`. -/
inductive SlotForm {α : Type} (form : Form α) : Form (Nullable α) where
  | name : SlotForm form (.string "Null") .null
  | null : SlotForm form (.object [("Null", .null)]) .null
  | value {e : Tree} {a : α} (value : form e a) : SlotForm form (.object [("Value", e)]) (.value a)

/-- A column is an array with one element for each of its slots, in their order. -/
inductive ColumnForm {α : Type} (form : Form α) : Form (Column α) where
  | mk {es : List Tree} {slots : List (Nullable α)} (each : List.Forall₂ (SlotForm form) es slots) :
      ColumnForm form (.array es) ⟨slots⟩

end Json

namespace ElementType

/-- The forms of the values of a type; those of floating point numbers are left out. -/
def form : (t : ElementType) → Json.Form t.Value
  | int k => Json.IntForm k
  | float _ => fun _ _ => False
  | bool => fun e b => e = .bool b
  | char => fun e c => e = .string (String.singleton c)
  | text => fun e s => e = .string s
  | nested => Json.SlotForm (Json.IntForm .i32)

end ElementType
end ColumnAlgebra
