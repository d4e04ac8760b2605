/-!
# Quoted texts and characters

Between quotes, the quote in use and the backslash are escaped, the common control characters have
letters and the others are written by their code points.
-/

namespace ColumnAlgebra.Quoted
set_option autoImplicit false

def isControl (c : Char) : Bool := c.toNat < 0x20 || (0x7f ≤ c.toNat && c.toNat < 0xa0)

def escape (quote c : Char) : List Char :=
  if c = quote ∨ c = '\\' then ['\\', c]
  else if c = '\n' then ['\\', 'n']
  else if c = '\r' then ['\\', 'r']
  else if c = '\t' then ['\\', 't']
  else if c.toNat = 0 then ['\\', '0']
  else if isControl c then "\\u\x7b".toList ++ Nat.toDigits 16 c.toNat ++ ['\x7d']
  else [c]

def wrap (quote : Char) (cs : List Char) : String :=
  String.ofList (quote :: cs.flatMap (escape quote) ++ [quote])

def text (s : String) : String := wrap '"' s.toList

def char (c : Char) : String := wrap '\x27' [c]

end ColumnAlgebra.Quoted
