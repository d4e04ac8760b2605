import ColumnAlgebra.Debug.Layout
import ColumnAlgebra.Debug.Quoted
import ColumnAlgebra.Element.Basic
import ColumnAlgebra.Handle

/-!
# Texts that show how values are built

A slot, a column, a handle and an error are written with the names of their parts. Texts are quoted,
and a floating point number always shows a point or an exponent.
-/

namespace ColumnAlgebra
set_option autoImplicit false

def ElementType.debugLayout : FloatLayout :=
  { positional := some (-4, 15)
    wholeSuffix := ".0"
    exponentPlus := false
    tieUp := true
    infinity := "inf"
    negativeInfinity := "-inf"
    nan := "NaN" }

def Nullable.debug {α : Type} (text : α → DebugText) : Nullable α → DebugText
  | .null => .atom "Null"
  | .value a => .call "Value" [text a]

namespace ElementType

def debugText : (t : ElementType) → t.Value → DebugText
  | int _, x => .atom (displayInt x)
  | float k, x => .atom (debugLayout.text k x)
  | bool, x => .atom (display .bool x)
  | char, x => .atom (Quoted.char x)
  | text, x => .atom (Quoted.text x)
  | nested, x => Nullable.debug (fun y => .atom (displayInt y)) x

end ElementType

def Column.debug {α : Type} (text : α → DebugText) (c : Column α) : DebugText :=
  .record "Column" [.field "slots" (.list (c.slots.map (·.debug text)))]

/-- A handle that may write has a name of its own. -/
def Handle.debug {α : Type} (text : α → DebugText) (writes : Bool) (h : Handle α) : DebugText :=
  let index := match h.position with
    | some n => DebugText.call "Some" [.atom (toString n)]
    | none => .atom "None"
  .record (if writes then "ElementMut" else "ElementRef")
    [.field "column" (h.column.debug text), .field "index" index]

def ColumnError.debug : ColumnError → DebugText
  | emptyColumn => .atom "EmptyColumn"
  | indexError index length =>
    .record "IndexError"
      [.field "index" (.atom (Quoted.text index)), .field "len" (.atom (toString length))]
  | valueError got expected =>
    .record "ValueError"
      [.field "got" (.atom (Quoted.text got)), .field "expected" (.atom (Quoted.text expected))]

end ColumnAlgebra
