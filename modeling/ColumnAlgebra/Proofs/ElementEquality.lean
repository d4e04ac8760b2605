import ColumnAlgebra.Operation
import Mathlib

/-!
# Equality of values and of slots

The equality that a type of values brings with it is the identity, except for floating point numbers,
where it is symmetric but no NaN equals itself. On slots it takes two empty ones for equal. Main
statement: every way to ask whether two single slots are equal has the answer of this one equality.
-/

namespace ColumnAlgebra
set_option autoImplicit false

namespace FloatKind

theorem beq_comm (k : FloatKind) (x y : k.Number) : k.beq x y = k.beq y x := by
  rw [Bool.eq_iff_iff]
  cases k with
  | single =>
    change ((show Float32 from x) == (show Float32 from y)) = true ↔
      ((show Float32 from y) == (show Float32 from x)) = true
    rw [Float32.beq_iff_ne_nan_and_eq, Float32.beq_iff_ne_nan_and_eq]
    tauto
  | double =>
    change ((show Float from x) == (show Float from y)) = true ↔
      ((show Float from y) == (show Float from x)) = true
    rw [Float.beq_iff_ne_nan_and_eq, Float.beq_iff_ne_nan_and_eq]
    tauto

theorem exists_beq_self_eq_false (k : FloatKind) : ∃ x : k.Number, k.beq x x = false := by
  cases k with
  | single => exact ⟨Float32.nan, Float32.beq_self_eq_false_iff.mpr rfl⟩
  | double => exact ⟨Float.nan, Float.beq_self_eq_false_iff.mpr rfl⟩

end FloatKind

variable {α : Type} {eq : α → α → Bool} {s r : Nullable α}

namespace Nullable

/-- Both slots are empty, or both are present with equal values. -/
def Matches (eq : α → α → Bool) (s r : Nullable α) : Prop :=
  (s = .null ∧ r = .null) ∨ ∃ x y, s = .value x ∧ r = .value y ∧ eq x y = true

theorem equal_eq_true_iff : s.equal eq r = true ↔ Matches eq s r := by
  cases s <;> cases r <;> simp [equal, Matches]

theorem matches_null_left : Matches eq .null r ↔ r = .null := by simp [Matches]

theorem matches_null_right : Matches eq s .null ↔ s = .null := by simp [Matches]

theorem matches_iff_eq (h : ∀ x y, eq x y = true ↔ x = y) : Matches eq s r ↔ s = r := by
  cases s <;> cases r <;> simp [Matches, h]

theorem equal_comm (h : ∀ x y, eq x y = eq y x) (s r : Nullable α) : s.equal eq r = r.equal eq s := by
  cases s <;> cases r <;> simp [equal, h]

theorem equivalence_matches (h : Equivalence fun x y => eq x y = true) :
    Equivalence (Matches eq) where
  refl := by
    intro s
    cases s with
    | null => exact Or.inl ⟨rfl, rfl⟩
    | value x => exact Or.inr ⟨x, x, rfl, rfl, h.refl x⟩
  symm := by
    rintro s r (⟨hs, hr⟩ | ⟨x, y, hs, hr, hxy⟩)
    · exact Or.inl ⟨hr, hs⟩
    · exact Or.inr ⟨y, x, hr, hs, h.symm hxy⟩
  trans := by
    rintro s r u (⟨rfl, rfl⟩ | ⟨x, y, rfl, rfl, hxy⟩) hru
    · exact hru
    · rcases hru with ⟨hy, _⟩ | ⟨y', z, hy, hz, hyz⟩
      · cases hy
      · cases hy
        exact Or.inr ⟨x, z, rfl, hz, h.trans hxy hyz⟩

theorem holds_eq_equal (s : Nullable α) (a : α) : s.holds eq a = s.equal eq (.value a) := by
  cases s <;> rfl

theorem isNull_eq_equal (s : Nullable α) : s.isNull = s.equal eq .null := by
  cases s <;> rfl

end Nullable

namespace ElementType

theorem beq_comm (t : ElementType) (x y : t.Value) : t.beq x y = t.beq y x := by
  have identity {β : Type} [DecidableEq β] (x y : β) : decide (x = y) = decide (y = x) :=
    decide_eq_decide.mpr eq_comm
  cases t with
  | int k => exact identity (β := FixedInt k) x y
  | float k => exact k.beq_comm x y
  | bool => exact identity (β := Bool) x y
  | char => exact identity (β := Char) x y
  | text => exact identity (β := String) x y
  | nested => exact Nullable.equal_comm identity x y

theorem beq_eq_true_iff {t : ElementType} (h : ∀ k, t ≠ .float k) (x y : t.Value) :
    t.beq x y = true ↔ x = y := by
  have identity {β : Type} [DecidableEq β] (x y : β) : decide (x = y) = true ↔ x = y :=
    decide_eq_true_iff
  cases t with
  | int k => exact identity (β := FixedInt k) x y
  | float k => exact absurd rfl (h k)
  | bool => exact identity (β := Bool) x y
  | char => exact identity (β := Char) x y
  | text => exact identity (β := String) x y
  | nested => exact Nullable.equal_eq_true_iff.trans (Nullable.matches_iff_eq identity)

theorem equivalence_beq_iff (t : ElementType) :
    (Equivalence fun x y => t.beq x y = true) ↔ ∀ k, t ≠ .float k := by
  constructor
  · rintro h k rfl
    obtain ⟨x, hx⟩ := k.exists_beq_self_eq_false
    exact Bool.false_ne_true (hx.symm.trans (h.refl x))
  · intro h
    simp only [beq_eq_true_iff h]
    exact eq_equivalence

end ElementType

/-- The pairs of single slots that can be compared as wholes. -/
inductive Term.Comparable : Term α → Term α → Prop where
  | nullables (s r : Nullable α) : Comparable (.operand (.nullable s)) (.operand (.nullable r))
  | handle_nullable (h : Handle α) (p : Passing) (r : Nullable α) :
    Comparable (.operand (.handle h p)) (.operand (.nullable r))
  | nullable_scalar (s : Nullable α) (a : α) :
    Comparable (.operand (.nullable s)) (.literal (.scalar a))
  | handle_scalar (h : Handle α) (p : Passing) (a : α) :
    Comparable (.operand (.handle h p)) (.literal (.scalar a))
  | scalar_nullable (a : α) (r : Nullable α) :
    Comparable (.literal (.scalar a)) (.operand (.nullable r))
  | nullable_null (s : Nullable α) : Comparable (.operand (.nullable s)) (.literal .null)
  | null_nullable (r : Nullable α) : Comparable (.literal .null) (.operand (.nullable r))
  | nulls : Comparable (.literal .null) (.literal .null)

section Routes

variable {t : ElementType} {l r : Term t.Value} {u v : Nullable t.Value}

theorem equal?_of_comparable (h : l.Comparable r) (hl : l.slot? = some u) (hr : r.slot? = some v) :
    l.equal? t.beq r = some (u.equal t.beq v) := by
  cases h with
  | nullables s r | handle_nullable h p r =>
    cases hl
    cases hr
    rfl
  | nullable_scalar s a | handle_scalar h p a =>
    cases hl
    cases hr
    exact congrArg some (Nullable.holds_eq_equal _ a)
  | scalar_nullable a s =>
    -- The value stands on the left, but is looked for in the slot.
    cases hl
    cases hr
    have hsym := Nullable.equal_comm t.beq_comm v (.value a)
    exact congrArg some ((Nullable.holds_eq_equal v a).trans hsym)
  | nullable_null s =>
    cases hl
    cases hr
    exact congrArg some u.isNull_eq_equal
  | null_nullable s =>
    cases hl
    cases hr
    have hsym := Nullable.equal_comm t.beq_comm v .null
    exact congrArg some (v.isNull_eq_equal.trans hsym)
  | nulls =>
    cases hl
    cases hr
    rfl

theorem run?_equality_of_comparable (h : l.Comparable r) (hl : l.slot? = some u)
    (hr : r.slot? = some v) : Operation.run? (.equality l r) =
      some (.ok (.equality (u.equal t.beq v) (!u.equal t.beq v))) := by
  rw [Operation.run?, equal?_of_comparable h hl hr]
  rfl

/-- As a method, equality has a single slot on its left: a nullable or a handle. -/
theorem run?_equal_single {o : Operand t.Value} (hl : (Term.operand o).slot? = some u)
    (hr : r.slot? = some v) :
    Operation.run? (.method .equal (.operand o) r) = some (.ok (.truth (u.equal t.beq v))) ∧
    Operation.run? (.method .notEqual (.operand o) r) = some (.ok (.truth (!u.equal t.beq v))) := by
  cases o with
  | nullable s | handle h p =>
    cases hl
    simp only [Operation.run?, Method.call?, hr]
    exact ⟨rfl, rfl⟩
  | column c p => cases hl

end Routes

end ColumnAlgebra
