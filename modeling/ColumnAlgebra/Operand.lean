import ColumnAlgebra.Column.Zip
import ColumnAlgebra.Fault

/-!
# Operands

An operand is a nullable, a handle or a column; a bare value and the null literal may stand opposite
to one. A column on either side makes a column. A column on the left meets whatever stands to its
right; a single slot on the left is applied to every slot of a column on its right; the null literal
empties the other operand without looking at it. Columns and handles are given away or lent, and no
operator treats the two differently.
-/

namespace ColumnAlgebra
set_option autoImplicit false

/-- A handle that may write is always lent; one that may only read is given away. -/
inductive Passing where
  | given
  | lent
  deriving DecidableEq

inductive Operand (α : Type) where
  | nullable (s : Nullable α)
  | handle (h : Handle α) (passing : Passing)
  | column (c : Column α) (passing : Passing)

inductive Literal (α : Type) where
  | scalar (a : α)
  | null

inductive Computed (α : Type) where
  | nullable (s : Nullable α)
  | column (c : Column α)

variable {α β γ : Type}

def Literal.slot : Literal α → Nullable α
  | scalar a => .value a
  | null => .null

/-- The slot applied to what stands to its right. -/
def Nullable.combine (f : α → β → Except Fault γ) (s : Nullable α) :
    Operand β → Except Fault (Computed γ)
  | .nullable t => .nullable <$> s.zipWithM f t
  | .handle h _ => .nullable <$> s.zipWithM f h.get
  | .column d _ => .column <$> d.mapM (s.zipWithM f)

namespace Operand

def broadcast : Operand α → Broadcast α
  | nullable s => s.broadcast
  | handle h _ => h.broadcast
  | column c _ => c.broadcast

def emptied : Operand α → Computed α
  | nullable _ => .nullable .null
  | handle _ _ => .nullable .null
  | column c _ => .column (.nulls c.length)

def apply (f : α → Except Fault β) : Operand α → Except Fault (Computed β)
  | nullable s => .nullable <$> s.mapM f
  | handle h _ => .nullable <$> h.get.mapM f
  | column c _ => .column <$> c.mapM (Nullable.mapM f)

def combine (f : α → β → Except Fault γ) : Operand α → Operand β → Outcome Fault (Computed γ)
  | nullable s, r => .ofExcept (s.combine f r)
  | handle h _, r => .ofExcept (h.get.combine f r)
  | column c _, r => .column <$> c.combine (Nullable.zipWithM f) r.broadcast

def combineLiteral (f : α → α → Except Fault α) (l : Operand α) :
    Literal α → Outcome Fault (Computed α)
  | .scalar a => l.combine f (.nullable (.value a))
  | .null => pure l.emptied

end Operand

def Literal.combine (f : α → α → Except Fault α) :
    Literal α → Operand α → Outcome Fault (Computed α)
  | scalar a, r => .ofExcept ((Nullable.value a).combine f r)
  | null, r => pure r.emptied

end ColumnAlgebra
