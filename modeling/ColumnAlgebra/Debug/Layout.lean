/-!
# Texts in two layouts

A structured text has a form on one line and a form on several lines, where every part stands on lines
of its own, four places deeper than what encloses it and followed by a comma. An enclosure without
parts is one line in both.
-/

namespace ColumnAlgebra
set_option autoImplicit false

structure DebugText where
  flat : String
  lines : List String

namespace DebugText

def atom (s : String) : DebugText := ⟨s, [s]⟩

def pretty (x : DebugText) : String := "\n".intercalate x.lines

def indent (line : String) : String := "    " ++ line

/-- The lines with a comma after the last. -/
def followedByComma : List String → List String
  | [] => []
  | [line] => [line ++ ","]
  | line :: rest => line :: followedByComma rest

/-- The parts between an opening and a closing mark; `pad` sets them off on one line. -/
def enclose (opening pad closing : String) : List DebugText → DebugText
  | [] => atom (opening ++ closing)
  | parts =>
    { flat := opening ++ pad ++ ", ".intercalate (parts.map flat) ++ pad ++ closing
      lines := opening :: (parts.flatMap fun x => (followedByComma x.lines).map indent) ++ [closing] }

def call (name : String) (arguments : List DebugText) : DebugText :=
  enclose (name ++ "(") "" ")" arguments

def list (items : List DebugText) : DebugText := enclose "[" "" "]" items

def field (name : String) (x : DebugText) : DebugText :=
  { flat := name ++ ": " ++ x.flat
    lines := match x.lines with
      | [] => [name ++ ": "]
      | line :: rest => (name ++ ": " ++ line) :: rest }

def record (name : String) (fields : List DebugText) : DebugText :=
  enclose (name ++ " \x7b") " " "\x7d" fields

end DebugText
end ColumnAlgebra
