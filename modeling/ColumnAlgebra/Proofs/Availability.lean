import ColumnAlgebra.Operation

/-!
# Which operations a type has

Whether there is an operator or a method is a matter of the element type: arithmetic asks for numbers,
bits for integers or truth values, a connective for a truth, and texts can only be joined. Nested elements
have the operators of their integers. Main statement: the tables of the types hold what these rules say
and nothing else, so a method of a column runs exactly if the type has it.
-/

namespace ColumnAlgebra
set_option autoImplicit false

variable {t : ElementType}

/-- Values of the type can be calculated with, joined or combined bit by bit, as the operator asks for. -/
def BinaryOperator.SuitedTo (t : ElementType) : BinaryOperator → Prop
  | add => (∃ k, t = .int k) ∨ (∃ k, t = .float k) ∨ t = .text ∨ t = .nested
  | sub | mul | div | rem => (∃ k, t = .int k) ∨ (∃ k, t = .float k) ∨ t = .nested
  | bitAnd | bitOr | bitXor => (∃ k, t = .int k) ∨ t = .bool ∨ t = .nested

/-- Values of the type have an order, a truth, or a division, as the method asks for. -/
def Method.SuitedTo (t : ElementType) : Method → Prop
  | equal | notEqual => True
  | compare _ => t ≠ .nested
  | connect _ => (∃ k, t = .int k) ∨ (∃ k, t = .float k) ∨ t = .bool
  | checked _ => (∃ k, t = .int k) ∨ ∃ k, t = .float k

section Decisions

instance ElementType.decidableIsInt : (t : ElementType) → Decidable (∃ k, t = .int k)
  | .int k => .isTrue ⟨k, rfl⟩
  | .float _ | .bool | .char | .text | .nested => .isFalse nofun

instance ElementType.decidableIsFloat : (t : ElementType) → Decidable (∃ k, t = .float k)
  | .float k => .isTrue ⟨k, rfl⟩
  | .int _ | .bool | .char | .text | .nested => .isFalse nofun

instance BinaryOperator.decidableSuitedTo : (op : BinaryOperator) → Decidable (op.SuitedTo t)
  | .add =>
    inferInstanceAs (Decidable ((∃ k, t = .int k) ∨ (∃ k, t = .float k) ∨ t = .text ∨ t = .nested))
  | .sub | .mul | .div | .rem =>
    inferInstanceAs (Decidable ((∃ k, t = .int k) ∨ (∃ k, t = .float k) ∨ t = .nested))
  | .bitAnd | .bitOr | .bitXor =>
    inferInstanceAs (Decidable ((∃ k, t = .int k) ∨ t = .bool ∨ t = .nested))

instance Method.decidableSuitedTo : (m : Method) → Decidable (m.SuitedTo t)
  | .equal | .notEqual => inferInstanceAs (Decidable True)
  | .compare _ => inferInstanceAs (Decidable (t ≠ .nested))
  | .connect _ =>
    inferInstanceAs (Decidable ((∃ k, t = .int k) ∨ (∃ k, t = .float k) ∨ t = .bool))
  | .checked _ => inferInstanceAs (Decidable ((∃ k, t = .int k) ∨ ∃ k, t = .float k))

end Decisions

namespace ElementType

theorem binary?_isSome_iff (op : BinaryOperator) : (t.binary? op).isSome ↔ op.SuitedTo t := by
  cases t with
  | int | nested => exact iff_of_true rfl (by cases op <;> simp [BinaryOperator.SuitedTo])
  | float | bool | char | text =>
    cases op <;> simp [binary?, FloatKind.binary?, BinaryOperator.onBool?, BinaryOperator.SuitedTo]

theorem compare?_isSome_iff (c : Comparison) : (t.compare? c).isSome ↔ t ≠ .nested := by
  cases t <;> simp [compare?]

theorem connect?_isSome_iff (c : Connective) : (t.connect? c).isSome ↔
    (∃ k, t = .int k) ∨ (∃ k, t = .float k) ∨ t = .bool := by
  cases t with
  | int | float | bool => exact iff_of_true rfl (by simp)
  | char | text | nested => exact iff_of_false nofun (by simp)

theorem checked?_isSome_iff (op : CheckedOperator) : (t.checked? op).isSome ↔
    (∃ k, t = .int k) ∨ ∃ k, t = .float k := by
  cases t with
  | int | float => exact iff_of_true rfl (by simp)
  | bool | char | text | nested => exact iff_of_false nofun (by simp)

end ElementType

/-- The shape of what stands to the right does not matter to a column. -/
theorem Method.onColumn?_isSome_iff {m : Method} {c : Column t.Value} {b : Broadcast t.Value} :
    (m.onColumn? c b).isSome ↔ m.SuitedTo t := by
  cases m with
  | equal | notEqual => exact iff_of_true rfl trivial
  | compare o =>
    rw [onColumn?, Option.isSome_map]
    exact ElementType.compare?_isSome_iff o
  | connect o =>
    rw [onColumn?, Option.isSome_map]
    exact ElementType.connect?_isSome_iff o
  | checked op =>
    rw [onColumn?, Option.isSome_map]
    exact ElementType.checked?_isSome_iff op

end ColumnAlgebra
