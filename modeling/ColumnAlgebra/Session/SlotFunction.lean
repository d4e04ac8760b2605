import ColumnAlgebra.Column.Zip
import ColumnAlgebra.Element.Basic

/-!
# Named slot functions

The functions that a session maps over a column, or over two columns position by position. Some make
columns of truth values, of texts or of slots.
-/

namespace ColumnAlgebra
set_option autoImplicit false

/-- A column made from a column of elements. -/
inductive MadeColumn (t : ElementType) where
  | elements (c : Column t.Value)
  | truths (c : Column Bool)
  | texts (c : Column String)
  | nested (c : Column (Nullable t.Value))

inductive SlotMap (α : Type) where
  | isNull
  | toNull
  | text
  | fill (a : α)
  | nest
  | number

inductive SlotJoin where
  | first
  | second
  | coalesce
  | bothNull
  | join
  deriving DecidableEq

/-- Counts every slot, and puts the count before the text of a present one. -/
def Nullable.numbered {α : Type} (text : α → String) (s : Nullable α) :
    StateM Nat (Nullable String) := do
  let n ← getModify (· + 1)
  pure (s.map fun a => s!"{n}:" ++ text a)

variable {t : ElementType}

def SlotMap.apply (c : Column t.Value) : SlotMap t.Value → MadeColumn t
  | isNull => .truths (c.map fun s => .value s.isNull)
  | toNull => .elements (c.map fun _ => .null)
  | text => .texts (c.map (Nullable.map t.display))
  | fill a => .elements (c.map fun s => .value (s.valueOr a))
  | nest => .nested (c.map .value)
  | number => .texts (Id.run ((c.mapM (Nullable.numbered t.display)).run 1)).1

def SlotJoin.apply {ε : Type} (c d : Column t.Value) : SlotJoin → Outcome ε (MadeColumn t)
  | first => .elements <$> c.meet (fun x _ => x) d.broadcast
  | second => .elements <$> c.meet (fun _ y => y) d.broadcast
  | coalesce => .elements <$> c.meet (fun x y => if x.isNull then y else x) d.broadcast
  | bothNull => .truths <$> c.meet (fun x y => .value (x.isNull && y.isNull)) d.broadcast
  | join =>
    .texts <$> c.meet (Nullable.zipWith fun a b => t.display b ++ t.display a) d.broadcast

end ColumnAlgebra
