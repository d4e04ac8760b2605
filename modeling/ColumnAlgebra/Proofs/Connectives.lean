import ColumnAlgebra.Connection
import ColumnAlgebra.Proofs.Locality
import ColumnAlgebra.Proofs.Propagation

/-!
# Logic of slots that may be empty

A connective looks at both of its operands: an empty slot empties the result, also where the other slot
would decide it. Every type reads its values for their truth alone, so its connectives are those of the
columns of truths. Main statement: on columns of any lengths the connectives have all the laws of truth
values but absorption, which holds only where the slot that is absorbed is present.
-/

namespace ColumnAlgebra
set_option autoImplicit false

variable {α β : Type}

namespace Connective

def dual : Connective → Connective
  | and => or
  | or => and

/-- The operator on truth values that does the same. -/
def bitOperator : Connective → BinaryOperator
  | and => .bitAnd
  | or => .bitOr

variable (c : Connective) (x y z : Bool)

theorem apply_comm : c.apply x y = c.apply y x := by
  cases c <;> cases x <;> cases y <;> rfl

theorem apply_assoc : c.apply (c.apply x y) z = c.apply x (c.apply y z) := by
  cases c <;> cases x <;> cases y <;> cases z <;> rfl

theorem apply_self : c.apply x x = x := by
  cases c <;> cases x <;> rfl

theorem apply_distrib : c.apply x (c.dual.apply y z) = c.dual.apply (c.apply x y) (c.apply x z) := by
  cases c <;> cases x <;> cases y <;> cases z <;> rfl

theorem apply_absorb : c.apply x (c.dual.apply x y) = x := by
  cases c <;> cases x <;> cases y <;> rfl

theorem not_apply : (!c.apply x y) = c.dual.apply (!x) (!y) := by
  cases c <;> cases x <;> cases y <;> rfl

theorem between_comm (f : α → Bool) (g : β → Bool) (a : α) (b : β) :
    c.between f g a b = c.between g f b a := c.apply_comm (f a) (g b)

end Connective

namespace Column

def truths (truthy : α → Bool) (a : Column α) : Column Bool := a.map (Nullable.map truthy)

def connect (c : Connective) (a b : Column Bool) : Column Bool := a.propagate c.apply b

def negated (a : Column Bool) : Column Bool := a.map (Nullable.map not)

@[simp] theorem length_truths (truthy : α → Bool) (a : Column α) :
    (a.truths truthy).length = a.length := length_map _ _

theorem truths_id (a : Column Bool) : a.truths id = a := by
  apply ext_slot
  · exact length_truths id a
  · intro i _
    rw [truths, slot_map_map]
    cases a.slot i <;> rfl

theorem negated_truths (truthy : α → Bool) (a : Column α) :
    (a.truths truthy).negated = a.map (Nullable.map fun x => !truthy x) :=
  map_map_values truthy not a

theorem connect_truths (c : Connective) (f : α → Bool) (g : β → Bool) (a : Column α) (b : Column β) :
    (a.truths f).connect c (b.truths g) = a.propagate (c.between f g) b :=
  propagate_map c.apply f g a b

theorem paddingLog_truths {f : α → Bool} {g : β → Bool} {a : Column α} {b : Column β} :
    (a.truths f).paddingLog (b.truths g).broadcast = a.paddingLog b.broadcast := by
  simp only [paddingLog, Column.broadcast, length_truths]

end Column

/-- The laws of connectives and a negation that an empty slot passes through. -/
structure WeakKleene (connect : Connective → Column Bool → Column Bool → Column Bool)
    (negate : Column Bool → Column Bool) : Prop where
  comm : ∀ c x y, connect c x y = connect c y x
  assoc : ∀ c x y z, connect c (connect c x y) z = connect c x (connect c y z)
  idempotent : ∀ c x, connect c x x = x
  distrib : ∀ (c : Connective) x y z,
    connect c x (connect c.dual y z) = connect c.dual (connect c x y) (connect c x z)
  deMorgan : ∀ (c : Connective) x y, negate (connect c x y) = connect c.dual (negate x) (negate y)
  involutive : ∀ x, negate (negate x) = x
  length : ∀ c x y, (connect c x y).length = max x.length y.length
  /-- No operand decides the result alone. -/
  null_iff : ∀ c x y i, (connect c x y).slot i = .null ↔ x.slot i = .null ∨ y.slot i = .null
  absorb : ∀ (c : Connective) x y i, y.slot i ≠ .null →
    (connect c x (connect c.dual x y)).slot i = x.slot i
  absorb_null : ∀ (c : Connective) x y i, y.slot i = .null →
    (connect c x (connect c.dual x y)).slot i = .null

open Column

theorem weakKleene_columns : WeakKleene Column.connect Column.negated where
  comm := fun c => propagate_comm c.apply_comm
  assoc := fun c => propagate_assoc c.apply_assoc
  idempotent := fun c => propagate_self c.apply_self
  distrib := fun c => propagate_distrib c.apply_distrib
  deMorgan := by
    intro c x y
    calc
      (connect c x y).negated = x.propagate (fun a b => !c.apply a b) y := map_propagate not c.apply x y
      _ = x.propagate (fun a b => c.dual.apply (!a) (!b)) y := by simp only [c.not_apply]
      _ = connect c.dual x.negated y.negated := (propagate_map c.dual.apply not not x y).symm
  involutive := by
    intro x
    calc
      x.negated.negated = x.map (Nullable.map fun a => !!a) := map_map_values not not x
      _ = x.truths id := by simp only [Bool.not_not]; rfl
      _ = x := truths_id x
  length := fun c => length_propagate c.apply
  null_iff := by
    intro c x y i
    rw [connect, slot_propagate]
    exact Nullable.zipWith_eq_null_iff
  absorb := by
    intro c x y i present
    simp only [connect, slot_propagate]
    exact Nullable.zipWith_absorb c.apply_absorb (x.slot i) present
  absorb_null := by
    intro c x y i absent
    simp only [connect, slot_propagate, absent, Nullable.zipWith_null_right]

section Operations

variable {t : ElementType} {truthy : t.Value → Bool}

theorem run?_connect_truths (known : t.truthy? = some truthy) (c : Connective) (a b : Column t.Value)
    (p q : Passing) : Operation.run? (.method (.connect c) (a.term p) (b.term q)) =
      some ⟨.ok (.truths (.column ((a.truths truthy).connect c (b.truths truthy)))),
        a.paddingLog b.broadcast⟩ := by
  have hc : t.connect? c = some (c.between truthy truthy) := by
    rw [ElementType.connect?, known]
    rfl
  rw [run?_connect hc, connect_truths]

theorem run?_logicalNot_truths (known : t.truthy? = some truthy) (a : Column t.Value) (p : Passing) :
    Operation.run? (.logicalNot (a.term p)) =
      some (.ok (.truths (.column (a.truths truthy).negated))) := by
  rw [run?_logicalNot_column known, mapM_ok, negated_truths]
  rfl

theorem run?_bitOperator (c : Connective) (x y : Column Bool) (p q : Passing) :
    Operation.run? (t := .bool) (.binary c.bitOperator (x.term p) (y.term q)) =
      some ⟨.ok (.elements (.column (x.connect c y))), x.paddingLog y.broadcast⟩ := by
  have known : ElementType.bool.binary? c.bitOperator = some fun a b => .ok (c.apply a b) := by
    cases c <;> rfl
  exact run?_binary_ok known x y p q

theorem run?_not (x : Column Bool) (p : Passing) :
    Operation.run? (t := .bool) (.unary .not (x.term p)) =
      some (.ok (.elements (.column x.negated))) := by
  have known : ElementType.bool.unary? .not = some fun a => .ok (!a) := rfl
  have happly : (Operand.column x p).apply (fun a => .ok (!a)) = .ok (.column x.negated) := by
    rw [Operand.apply, mapM_ok]
    rfl
  refine (run?_unary known (.column x p)).trans ?_
  exact congrArg (fun o => some (Outcome.ofExcept (Answer.elements (t := .bool) <$> o))) happly

theorem run?_bool (c : Connective) (x y : Column Bool) (p q : Passing) :
    Operation.run? (t := .bool) (.method (.connect c) (x.term p) (y.term q)) =
      some ⟨.ok (.truths (.column (x.connect c y))), x.paddingLog y.broadcast⟩ := by
  have hrun : Operation.run? (t := .bool) (.method (.connect c) (x.term p) (y.term q)) =
      some ⟨.ok (.truths (.column ((x.truths id).connect c (y.truths id)))),
        x.paddingLog y.broadcast⟩ := run?_connect_truths (t := .bool) rfl c x y p q
  rwa [truths_id, truths_id] at hrun

theorem run?_logicalNot_bool (x : Column Bool) (p : Passing) :
    Operation.run? (t := .bool) (.logicalNot (x.term p)) =
      some (.ok (.truths (.column x.negated))) := by
  have hrun : Operation.run? (t := .bool) (.logicalNot (x.term p)) =
      some (.ok (.truths (.column (x.truths id).negated))) :=
    run?_logicalNot_truths (t := .bool) rfl x p
  rwa [truths_id] at hrun

end Operations

/-- The connectives of two columns, as methods, are those of the columns of truths, and so are the bit
operators on those; the columns of truths are what two logical negations give. On columns of truth values
logical negation is the operator `not`, and the connectives commute, are associative and idempotent,
distribute over each other and are exchanged by negation, whatever the lengths. No slot of a result is
there unless both operands have one, and so absorption holds just where the absorbed slot is present.
Connectives between two different types commute as well. -/
theorem weak_kleene_connectives :
    (∀ (t : ElementType) (truthy : t.Value → Bool), t.truthy? = some truthy →
      ∀ (a b : Column t.Value) (p q : Passing),
        let x := a.truths truthy
        let y := b.truths truthy
        (∀ c, Operation.run? (.method (.connect c) (a.term p) (b.term q)) =
          some ⟨.ok (.truths (.column (x.connect c y))), a.paddingLog b.broadcast⟩) ∧
        (∀ c, Operation.run? (t := .bool) (.binary c.bitOperator (x.term p) (y.term q)) =
          some ⟨.ok (.elements (.column (x.connect c y))), a.paddingLog b.broadcast⟩) ∧
        Operation.run? (.logicalNot (a.term p)) = some (.ok (.truths (.column x.negated))) ∧
        Operation.run? (t := .bool) (.logicalNot (x.negated.term p)) =
          some (.ok (.truths (.column x)))) ∧
    (∀ (x y : Column Bool) (p q : Passing),
      (∀ c, Operation.run? (t := .bool) (.method (.connect c) (x.term p) (y.term q)) =
        some ⟨.ok (.truths (.column (x.connect c y))), x.paddingLog y.broadcast⟩) ∧
      Operation.run? (t := .bool) (.logicalNot (x.term p)) =
        some (.ok (.truths (.column x.negated))) ∧
      Operation.run? (t := .bool) (.unary .not (x.term p)) =
        some (.ok (.elements (.column x.negated)))) ∧
    WeakKleene Column.connect Column.negated ∧
    ∀ (t u : ElementType) (f : t.Value → Bool) (g : u.Value → Bool), t.truthy? = some f →
      u.truthy? = some g → ∀ c : Connective,
        (∀ (s : Nullable t.Value) (r : Nullable u.Value),
          s.zipWith (c.between f g) r = r.zipWith (c.between g f) s) ∧
        (∀ (a : Column t.Value) (b : Column u.Value),
          (a.meet (Nullable.zipWith (c.between f g)) b.broadcast : Outcome Fault _).result =
            (b.meet (Nullable.zipWith (c.between g f)) a.broadcast : Outcome Fault _).result) ∧
        ∀ (s : Nullable t.Value) (b : Nullable Bool),
          (s.connect c f b).forward = (s.connect c f b).reversed := by
  refine ⟨?_, ?_, weakKleene_columns, ?_⟩
  · intro t truthy known a b p q x y
    refine ⟨fun c => run?_connect_truths known c a b p q, fun c => ?_,
      run?_logicalNot_truths known a p, ?_⟩
    · rw [← paddingLog_truths]
      exact run?_bitOperator c x y p q
    · have hrun := run?_logicalNot_bool x.negated p
      rwa [weakKleene_columns.involutive] at hrun
  · intro x y p q
    exact ⟨fun c => run?_bool c x y p q, run?_logicalNot_bool x p, run?_not x p⟩
  · intro t u f g _ _ c
    refine ⟨fun s r => Nullable.zipWith_comm (c.between_comm f g) s r, fun a b => ?_, fun s b => ?_⟩
    · exact congrArg Except.ok (propagate_comm (c.between_comm f g) a b)
    · exact Nullable.zipWith_comm (c.between_comm f id) s b

end ColumnAlgebra
