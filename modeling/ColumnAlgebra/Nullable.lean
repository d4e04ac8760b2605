/-!
# Nullable values

A slot is empty or holds one value, and a slot of slots keeps its two levels apart. An operation
applied to slots gives an empty slot as soon as one of its operands is empty, and otherwise does what
it does on the values; equality is the one question that an empty slot answers.
-/

namespace ColumnAlgebra
set_option autoImplicit false

inductive Nullable (α : Type) where
  | null
  | value (a : α)
  deriving DecidableEq

namespace Nullable

variable {α β γ : Type}

def nullToken : String := "Null"

def ofOption : Option α → Nullable α
  | some a => value a
  | none => null

def toOption : Nullable α → Option α
  | value a => some a
  | null => none

def hasValue : Nullable α → Bool
  | value _ => true
  | null => false

def isNull : Nullable α → Bool
  | value _ => false
  | null => true

def valueOr (default : α) : Nullable α → α
  | value a => a
  | null => default

def map (f : α → β) : Nullable α → Nullable β
  | value a => value (f a)
  | null => null

def zipWith (f : α → β → γ) : Nullable α → Nullable β → Nullable γ
  | value a, value b => value (f a b)
  | _, _ => null

/-- A function that has effects runs on a present value only. -/
def mapM {m : Type → Type} [Monad m] (f : α → m β) : Nullable α → m (Nullable β)
  | value a => value <$> f a
  | null => pure null

/-- A function that has effects runs only where both values are present. -/
def zipWithM {m : Type → Type} [Monad m] (f : α → β → m γ) : Nullable α → Nullable β → m (Nullable γ)
  | value a, value b => value <$> f a b
  | _, _ => pure null

/-- An operation that may have no result: the slot is then empty. -/
def zipWithOption (f : α → β → Option γ) : Nullable α → Nullable β → Nullable γ
  | value a, value b => ofOption (f a b)
  | _, _ => null

/-- Two empty slots are equal, and an empty slot differs from a present one. -/
def equal (eq : α → α → Bool) : Nullable α → Nullable α → Bool
  | value a, value b => eq a b
  | null, null => true
  | _, _ => false

def notEqual (eq : α → α → Bool) (x y : Nullable α) : Bool := !x.equal eq y

def holds (eq : α → α → Bool) (x : Nullable α) (a : α) : Bool :=
  match x with
  | value b => eq b a
  | null => false

def display (text : α → String) : Nullable α → String
  | value a => text a
  | null => nullToken

@[simp] theorem toOption_ofOption (x : Option α) : (ofOption x).toOption = x := by cases x <;> rfl

@[simp] theorem ofOption_toOption (x : Nullable α) : ofOption x.toOption = x := by cases x <;> rfl

@[simp] theorem not_isNull (x : Nullable α) : (!x.isNull) = x.hasValue := by cases x <;> rfl

@[simp] theorem map_null (f : α → β) : (null : Nullable α).map f = null := rfl

@[simp] theorem map_value (f : α → β) (a : α) : (value a).map f = value (f a) := rfl

@[simp] theorem zipWith_null_left (f : α → β → γ) (y : Nullable β) : zipWith f null y = null := rfl

@[simp] theorem zipWith_null_right (f : α → β → γ) (x : Nullable α) : zipWith f x null = null := by
  cases x <;> rfl

@[simp] theorem zipWith_value (f : α → β → γ) (a : α) (b : β) :
    zipWith f (value a) (value b) = value (f a b) := rfl

theorem zipWithM_null_right {m : Type → Type} [Monad m] (f : α → β → m γ) (x : Nullable α) :
    zipWithM f x null = pure null := by
  cases x <;> rfl

end Nullable
end ColumnAlgebra
