import ColumnAlgebra.Element.Operators
import ColumnAlgebra.Operand

/-!
# Operations on terms

A term is an operand or a literal. An operation names an operator or a method and its terms; it runs
where the element type has the operator and the shapes fit. A method of a single slot takes a single
slot; a method of a column takes any term. Equality as a method gives a truth value for every pair of
slots, and between two columns it also sees the padding.
-/

namespace ColumnAlgebra
set_option autoImplicit false

inductive Term (α : Type) where
  | operand (o : Operand α)
  | literal (l : Literal α)

namespace Term

variable {α : Type}

/-- The slot that a term stands for, unless it is a column. -/
def slot? : Term α → Option (Nullable α)
  | operand (.nullable s) => some s
  | operand (.handle h _) => some h.get
  | operand (.column _ _) => none
  | literal l => some l.slot

def broadcast : Term α → Broadcast α
  | operand o => o.broadcast
  | literal l => l.slot.broadcast

def combine? (f : α → α → Except Fault α) :
    Term α → Term α → Option (Outcome Fault (Computed α))
  | operand l, operand r => some (l.combine f r)
  | operand l, literal r => some (l.combineLiteral f r)
  | literal l, operand r => some (l.combine f r)
  | literal _, literal _ => none

/-- Whether two terms are equal as wholes, for the pairs of shapes that can be compared so. -/
def equal? (eq : α → α → Bool) : Term α → Term α → Option Bool
  | operand (.column c _), operand (.column d _) => some (c.equalTo eq d)
  | operand (.nullable s), operand (.nullable t) => some (s.equal eq t)
  | operand (.handle h _), operand (.nullable t) => some (h.get.equal eq t)
  | operand (.nullable s), literal (.scalar a) => some (s.holds eq a)
  | operand (.handle h _), literal (.scalar a) => some (h.get.holds eq a)
  | literal (.scalar a), operand (.nullable s) => some (s.holds eq a)
  | operand (.nullable s), literal .null => some s.isNull
  | literal .null, operand (.nullable s) => some s.isNull
  | literal .null, literal .null => some true
  | _, _ => none

end Term

inductive Method where
  | equal
  | notEqual
  | compare (c : Comparison)
  | connect (c : Connective)
  | checked (op : CheckedOperator)

inductive Operation (τ : Type) where
  | binary (op : BinaryOperator) (l r : τ)
  | unary (op : UnaryOperator) (x : τ)
  | logicalNot (x : τ)
  | method (m : Method) (l r : τ)
  | equality (l r : τ)

inductive Answer (t : ElementType) where
  | elements (x : Computed t.Value)
  | truths (x : Computed Bool)
  | truth (b : Bool)
  | equality (equal unequal : Bool)

namespace Method

variable {t : ElementType}

def onSlot? (m : Method) (s r : Nullable t.Value) : Option (Answer t) :=
  match m with
  | equal => some (.truth (s.equal t.beq r))
  | notEqual => some (.truth (s.notEqual t.beq r))
  | compare c => (t.compare? c).map fun p => .truths (.nullable (s.zipWith p r))
  | connect c => (t.connect? c).map fun p => .truths (.nullable (s.zipWith p r))
  | checked op => (t.checked? op).map fun f => .elements (.nullable (s.zipWithOption f r))

/-- A handle has no checked operations. -/
def onHandle? (m : Method) (h : Handle t.Value) (r : Nullable t.Value) : Option (Answer t) :=
  match m with
  | checked _ => none
  | _ => m.onSlot? h.get r

def onColumn? (m : Method) (c : Column t.Value) (b : Broadcast t.Value) :
    Option (Outcome Fault (Answer t)) :=
  let truths (p : Nullable t.Value → Nullable t.Value → Nullable Bool) :
      Outcome Fault (Answer t) := (.truths <| .column ·) <$> c.meet p b
  match m with
  | equal => some (truths fun x y => .value (x.equal t.beq y))
  | notEqual => some (truths fun x y => .value (x.notEqual t.beq y))
  | compare o => (t.compare? o).map fun p => truths (Nullable.zipWith p)
  | connect o => (t.connect? o).map fun p => truths (Nullable.zipWith p)
  | checked op => (t.checked? op).map fun f =>
    (.elements <| .column ·) <$> c.meet (Nullable.zipWithOption f) b

def call? (m : Method) : Term t.Value → Term t.Value → Option (Outcome Fault (Answer t))
  | .operand (.nullable s), r => do
    let answer ← m.onSlot? s (← r.slot?)
    pure (.ok answer)
  | .operand (.handle h _), r => do
    let answer ← m.onHandle? h (← r.slot?)
    pure (.ok answer)
  | .operand (.column c _), r => m.onColumn? c r.broadcast
  | .literal _, _ => none

end Method

namespace Operation

variable {t : ElementType}

/-- The operation with its terms looked up, from left to right. -/
def resolve? {σ τ : Type} (find : σ → Option τ) : Operation σ → Option (Operation τ)
  | binary op l r => do pure (binary op (← find l) (← find r))
  | unary op x => do pure (unary op (← find x))
  | logicalNot x => do pure (logicalNot (← find x))
  | method m l r => do pure (method m (← find l) (← find r))
  | equality l r => do pure (equality (← find l) (← find r))

/-- Nothing, where the element type or the shapes have no such operation. -/
def run? : Operation (Term t.Value) → Option (Outcome Fault (Answer t))
  | binary op l r => do
    let f ← t.binary? op
    let outcome ← l.combine? f r
    pure (.elements <$> outcome)
  | unary op (.operand x) => do
    let f ← t.unary? op
    pure (.ofExcept (.elements <$> x.apply f))
  | logicalNot (.operand x) => do
    let truthy ← t.truthy?
    pure (.ofExcept (.truths <$> x.apply fun a => .ok (!truthy a)))
  | method m l r => m.call? l r
  | equality l r => do
    let same ← l.equal? t.beq r
    pure (.ok (.equality same (!same)))
  | unary _ (.literal _) => none
  | logicalNot (.literal _) => none

end Operation
end ColumnAlgebra
