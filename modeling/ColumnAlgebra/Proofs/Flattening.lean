import ColumnAlgebra.Proofs.ColumnArithmetic
import ColumnAlgebra.Proofs.Fusion

/-!
# The two levels of a nested element

A slot of nested elements is empty, or holds an empty element, or holds an integer. An operator takes
the outer level first and the inner one where both slots are present, so the levels never mix. Main
statement: which level of the result is empty, which fault is met first, and that flattening the two
levels to one goes through every operator, faults included; equality alone sees the difference.
-/

namespace ColumnAlgebra
set_option autoImplicit false

variable {α β γ ε : Type}

namespace Nullable

/-- The two levels as one, empty where either is. -/
def flatten (s : Nullable (Nullable α)) : Nullable α := s.valueOr .null

section Monads

variable {m : Type → Type} [Monad m] [LawfulMonad m]

theorem flatten_map_value (x : m (Nullable γ)) : flatten <$> value <$> x = x := by
  rw [Functor.map_map]
  exact id_map x

theorem flatten_zipWithM (f : α → β → m γ) (s : Nullable (Nullable α)) (r : Nullable (Nullable β)) :
    flatten <$> s.zipWithM (zipWithM f) r = s.flatten.zipWithM f r.flatten := by
  cases s with
  | null => exact map_pure _ _
  | value x =>
    cases r with
    | null => exact (map_pure _ _).trans (zipWithM_null_right f x).symm
    | value y => exact flatten_map_value (x.zipWithM f y)

theorem flatten_mapM (f : α → m β) (s : Nullable (Nullable α)) :
    flatten <$> s.mapM (mapM f) = s.flatten.mapM f := by
  cases s with
  | null => exact map_pure _ _
  | value x => exact flatten_map_value (x.mapM f)

end Monads

variable {eq : α → α → Bool} {s r : Nullable (Nullable α)}

/-- One slot is empty and the other holds an empty element. -/
def EmptyApart (s r : Nullable (Nullable α)) : Prop :=
  (s = .null ∧ r = .value .null) ∨ (s = .value .null ∧ r = .null)

theorem flatten_equal_iff :
    s.flatten.equal eq r.flatten = true ↔ s.equal (Nullable.equal eq) r = true ∨ EmptyApart s r := by
  rcases s with _ | _ | x <;> rcases r with _ | _ | y <;>
    simp [flatten, valueOr, equal, EmptyApart]

theorem EmptyApart.not_equal (h : EmptyApart s r) : ¬s.equal (Nullable.equal eq) r = true := by
  rcases h with ⟨rfl, rfl⟩ | ⟨rfl, rfl⟩ <;> exact nofun

end Nullable

namespace Column

def flat (c : Column (Nullable α)) : Column α := c.map Nullable.flatten

@[simp] theorem length_flat (c : Column (Nullable α)) : c.flat.length = c.length := length_map _ c

@[simp] theorem slot_flat (c : Column (Nullable α)) (i : Nat) : c.flat.slot i = (c.slot i).flatten :=
  slot_map_of_null rfl c i

theorem flat_combine (f : α → β → Except ε γ) (a : Column (Nullable α)) (b : Column (Nullable β)) :
    flat <$> a.combine (Nullable.zipWithM (Nullable.zipWithM f)) b.broadcast =
      a.flat.combine (Nullable.zipWithM f) b.flat.broadcast := by
  have hjoin : (fun l r => Nullable.flatten <$> Nullable.zipWithM (Nullable.zipWithM f) l r) =
      fun l r => Nullable.zipWithM f l.flatten r.flatten :=
    funext fun l => funext fun r => Nullable.flatten_zipWithM f l r
  have hmap : flat <$> a.combine (Nullable.zipWithM (Nullable.zipWithM f)) b.broadcast =
      a.combine (fun l r => Nullable.flatten <$> Nullable.zipWithM (Nullable.zipWithM f) l r)
        b.broadcast := map_combine _ _ a b.broadcast
  rw [hmap, hjoin]
  exact (combine_map (fun _ => rfl) (fun _ => rfl) _).symm

theorem flat_mapM (f : α → Except ε β) (c : Column (Nullable α)) :
    flat <$> c.mapM (Nullable.mapM (Nullable.mapM f)) = c.flat.mapM (Nullable.mapM f) := by
  rw [mapM_eq_tabulate, mapM_eq_tabulate]
  refine (map_tabulate _ _ _).trans ?_
  simp only [length_flat, slot_flat, Nullable.flatten_mapM]

theorem lt_of_emptyApart {a b : Column (Nullable α)} {i : Nat}
    (h : (a.slot i).EmptyApart (b.slot i)) : i < max a.length b.length := by
  rcases h with ⟨_, hb⟩ | ⟨ha, _⟩
  · exact lt_max_of_lt_right (lt_length_of_slot_ne_null (by rw [hb]; exact nofun))
  · exact lt_max_of_lt_left (lt_length_of_slot_ne_null (by rw [ha]; exact nofun))

theorem equal_flat (eq : α → α → Bool) (a b : Column (Nullable α)) (i : Nat) :
    let e := a.compareSlots (Nullable.equal (Nullable.equal eq)) b.broadcast
    let e' := a.flat.compareSlots (Nullable.equal eq) b.flat.broadcast
    (e.slot i = .value true → e'.slot i = .value true) ∧
      (e'.slot i = .value true ∧ e.slot i ≠ .value true ↔ (a.slot i).EmptyApart (b.slot i)) := by
  intro e e'
  have he : e.slot i = .value true ↔ i < max a.length b.length ∧
      (a.slot i).equal (Nullable.equal eq) (b.slot i) = true := slot_compareSlots_eq_true_iff
  have he' : e'.slot i = .value true ↔ i < max a.length b.length ∧
      ((a.slot i).equal (Nullable.equal eq) (b.slot i) = true ∨ (a.slot i).EmptyApart (b.slot i)) := by
    rw [slot_compareSlots_eq_true_iff, length_flat, length_flat, slot_flat, slot_flat,
      Nullable.flatten_equal_iff]
  rw [Ne, he, he']
  refine ⟨fun h => ⟨h.1, Or.inl h.2⟩, fun h => ?_, fun h => ?_⟩
  · exact h.1.2.resolve_left fun hequal => h.2 ⟨h.1.1, hequal⟩
  · exact ⟨⟨lt_of_emptyApart h, Or.inr h⟩, fun hequal => h.not_equal hequal.2⟩

end Column

/-- A slot of 32-bit integers that may be empty on two levels. -/
abbrev NestedSlot : Type := Nullable (Nullable (FixedInt .i32))

namespace BinaryOperator

/-- What an operator makes of two slots: `u` is empty where a slot is, holds an empty element where the
slots are there and an element is empty, and else holds the exact result. -/
structure KeepsLevels (op : BinaryOperator) (s r u : NestedSlot) : Prop where
  outer : u = .null ↔ s = .null ∨ r = .null
  inner : u = .value .null ↔ s ≠ .null ∧ r ≠ .null ∧ (s = .value .null ∨ r = .value .null)
  exact : ∀ x y, s = .value (.value x) → r = .value (.value y) →
    ∃ z, u = .value (.value z) ∧ z.toInt = op.onInt x.toInt y.toInt

/-- At the position both levels are present on both sides, and there is no result for the integers. -/
def FailsAt (op : BinaryOperator) (a b : Column (Nullable (FixedInt .i32))) (i : Nat)
    (message : String) : Prop :=
  ∃ x y, a.slot i = .value (.value x) ∧ b.slot i = .value (.value y) ∧
    op.failure? .i32 x.toInt y.toInt = some message

variable {op : BinaryOperator} {s r u : NestedSlot}

theorem keepsLevels_null_left : op.KeepsLevels .null r .null where
  outer := by simp
  inner := by simp
  exact := nofun

theorem keepsLevels_null_right : op.KeepsLevels s .null .null where
  outer := by simp
  inner := by simp
  exact := fun _ _ _ => nofun

/-- On the inner level an operator is the one on integers. -/
theorem keepsLevels_value {x y z : Nullable (FixedInt .i32)}
    (h : z.map FixedInt.toInt = op.onSlots x y) :
    op.KeepsLevels (.value x) (.value y) (.value z) where
  outer := by simp
  inner := by
    have hz : z = .null ↔ x = .null ∨ y = .null := by
      rw [← Nullable.map_eq_null_iff (f := FixedInt.toInt), h, onSlots, Nullable.zipWith_eq_null_iff,
        Nullable.map_eq_null_iff, Nullable.map_eq_null_iff]
    simp [hz]
  exact := by
    rintro v w ⟨⟩ ⟨⟩
    cases z with
    | null => cases h
    | value z => exact ⟨z, rfl, Nullable.value.inj h⟩

theorem keepsLevels_of_ok (h : s.zipWithM (Nullable.zipWithM (FixedInt.binary op)) r = .ok u) :
    op.KeepsLevels s r u := by
  cases s with
  | null =>
    cases h
    exact keepsLevels_null_left
  | value x =>
    cases r with
    | null =>
      cases h
      exact keepsLevels_null_right
    | value y =>
      rw [Nullable.zipWithM] at h
      cases hz : x.zipWithM (FixedInt.binary op) y with
      | error fault =>
        rw [hz] at h
        cases h
      | ok z =>
        rw [hz] at h
        cases h
        exact keepsLevels_value (slotFailure?_of_ok hz).2

theorem failureAt?_flat {a b : Column (Nullable (FixedInt .i32))} {i : Nat} {message : String} :
    op.failureAt? a.flat b.flat i = some message ↔ op.FailsAt a b i message := by
  rw [failureAt?, Column.slot_flat, Column.slot_flat, FailsAt]
  rcases a.slot i with _ | _ | x <;> rcases b.slot i with _ | _ | y <;>
    simp [Nullable.flatten, Nullable.valueOr, slotFailure?]

end BinaryOperator

open Column BinaryOperator

/-- The fault is that of the flattened columns, and the slots are looked at on their two levels. -/
theorem nested_cases (op : BinaryOperator) (a b : Column (Nullable (FixedInt .i32))) :
    let z := a.combine (Nullable.zipWithM (Nullable.zipWithM (FixedInt.binary op))) b.broadcast
    (∃ c, z.result = .ok c ∧ (∀ i message, ¬op.FailsAt a b i message) ∧
      c.length = max a.length b.length ∧ ∀ i, op.KeepsLevels (a.slot i) (b.slot i) (c.slot i)) ∨
    (∃ fault, z.result = .error fault ∧
      ∃ i, op.FailsAt a b i fault.message ∧ ∀ j < i, ∀ message, ¬op.FailsAt a b j message) := by
  intro z
  have hflat : flat <$> z.result =
      a.flat.zipWithM (Nullable.zipWithM (FixedInt.binary op)) b.flat.broadcast :=
    (Outcome.result_map flat z).symm.trans (congrArg Outcome.result (flat_combine _ a b))
  have never {i : Nat} (h : op.failureAt? a.flat b.flat i = none) (message : String) :
      ¬op.FailsAt a b i message := by
    rw [← failureAt?_flat, h]
    exact nofun
  rcases zipWithM_exact op a.flat b.flat with ⟨d, hd, hnone, -, -⟩ | ⟨fault, he, i, hi, hfirst⟩
  · rw [hd] at hflat
    cases hz : z.result with
    | error fault =>
      rw [hz] at hflat
      cases hflat
    | ok c =>
      have htab : a.zipWithM (Nullable.zipWithM (Nullable.zipWithM (FixedInt.binary op))) b.broadcast =
        .ok c := hz
      rw [zipWithM_eq_tabulate, tabulate_eq_ok_iff, zipLength_column] at htab
      refine Or.inl ⟨c, rfl, fun i => never (hnone i), htab.1, fun i => ?_⟩
      by_cases hi : i < max a.length b.length
      · exact keepsLevels_of_ok (htab.2 i hi)
      · -- Past the end the outer level is empty, on the left and in the result.
        have ha : a.slot i = .null := slot_of_length_le (by omega)
        have hc : c.slot i = .null := slot_of_length_le (by omega)
        rw [ha, hc]
        exact keepsLevels_null_left
  · rw [he] at hflat
    cases hz : z.result with
    | ok c =>
      rw [hz] at hflat
      cases hflat
    | error fault' =>
      rw [hz] at hflat
      cases hflat
      exact Or.inr ⟨fault, rfl, i, failureAt?_flat.mp hi, fun j hj => never (hfirst j hj)⟩

/-- A nested element applies the operator of its integers. -/
theorem unary?_nested (op : UnaryOperator) :
    ∃ f : FixedInt .i32 → Except Fault (FixedInt .i32), (ElementType.int .i32).unary? op = some f ∧
      ElementType.nested.unary? op = some (Nullable.mapM f) := by
  cases op with
  | pos =>
    refine ⟨.ok, rfl, congrArg some (funext fun x => ?_)⟩
    cases x <;> rfl
  | neg => exact ⟨FixedInt.neg, rfl, rfl⟩
  | not =>
    refine ⟨fun x => .ok x.complement, rfl, congrArg some (funext fun x => ?_)⟩
    cases x <;> rfl

/-- Between two columns of nested elements, a slot of an operator's result is empty where a slot of the
operands is, holds an empty element where only elements are empty, and else holds the exact 32-bit
result. There is a fault exactly if at some position the integers are there on both levels and have no
result, with the message of the first such position. Flattening before the operator or after it comes to
the same, faults included, and so it does for the unary operators. Equality is not blind to the levels:
what is equal stays equal flattened, and the converse fails just where an empty slot meets an empty
element. -/
theorem nested_levels_and_flattening :
    (∀ (op : BinaryOperator) (a b : Column (Nullable (FixedInt .i32))) (p q : Passing),
      ∃ z : Outcome Fault (Column (Nullable (FixedInt .i32))),
      Operation.run? (t := .nested) (.binary op (a.term p) (b.term q)) =
        some ((fun c => .elements (.column c)) <$> z) ∧
      Operation.run? (t := .int .i32) (.binary op (a.flat.term p) (b.flat.term q)) =
        some ((fun c => .elements (.column c)) <$> flat <$> z) ∧
      ((∃ fault, z.result = .error fault) ↔ ∃ i message, op.FailsAt a b i message) ∧
      (∀ fault, z.result = .error fault →
        ∃ i, op.FailsAt a b i fault.message ∧ ∀ j < i, ∀ message, ¬op.FailsAt a b j message) ∧
      ∀ c, z.result = .ok c → c.length = max a.length b.length ∧
        ∀ i, op.KeepsLevels (a.slot i) (b.slot i) (c.slot i)) ∧
    (∀ (op : UnaryOperator) (a : Column (Nullable (FixedInt .i32))) (p : Passing),
      ∃ z : Except Fault (Column (Nullable (FixedInt .i32))),
      Operation.run? (t := .nested) (.unary op (a.term p)) =
        some (.ofExcept ((fun c => .elements (.column c)) <$> z)) ∧
      Operation.run? (t := .int .i32) (.unary op (a.flat.term p)) =
        some (.ofExcept ((fun c => .elements (.column c)) <$> flat <$> z))) ∧
    ∀ (a b : Column (Nullable (FixedInt .i32))) (p q : Passing), ∃ e e' : Column Bool,
      Operation.run? (t := .nested) (.method .equal (a.term p) (b.term q)) =
        some ⟨.ok (.truths (.column e)), a.paddingLog b.broadcast⟩ ∧
      Operation.run? (t := .int .i32) (.method .equal (a.flat.term p) (b.flat.term q)) =
        some ⟨.ok (.truths (.column e')), a.paddingLog b.broadcast⟩ ∧
      ∀ i, (e.slot i = .value true → e'.slot i = .value true) ∧
        (e'.slot i = .value true ∧ e.slot i ≠ .value true ↔ (a.slot i).EmptyApart (b.slot i)) := by
  refine ⟨?_, ?_, ?_⟩
  · intro op a b p q
    refine ⟨a.combine (Nullable.zipWithM (Nullable.zipWithM (FixedInt.binary op))) b.broadcast,
      run?_binary_columns (t := .nested) rfl a b p q, ?_, ?_⟩
    · rw [flat_combine]
      exact run?_binary_columns (t := .int .i32) rfl a.flat b.flat p q
    · rcases nested_cases op a b with ⟨c, hc, hnone, hl, hs⟩ | ⟨fault, he, i, hi, hfirst⟩
      · rw [hc]
        refine ⟨⟨nofun, ?_⟩, nofun, ?_⟩
        · rintro ⟨i, message, h⟩
          exact absurd h (hnone i message)
        · rintro d ⟨⟩
          exact ⟨hl, hs⟩
      · rw [he]
        refine ⟨⟨fun _ => ⟨i, fault.message, hi⟩, fun _ => ⟨fault, rfl⟩⟩, ?_, nofun⟩
        rintro fault' ⟨⟩
        exact ⟨i, hi, hfirst⟩
  · intro op a p
    obtain ⟨f, hint, hnested⟩ := unary?_nested op
    refine ⟨a.mapM (Nullable.mapM (Nullable.mapM f)), run?_unary_column hnested a p, ?_⟩
    refine (run?_unary_column hint a.flat p).trans ?_
    exact congrArg (fun x => some (Outcome.ofExcept (_ <$> x))) (flat_mapM f a).symm
  · intro a b p q
    refine ⟨_, _, run?_equal (t := .nested) a p (b.term q), ?_, equal_flat _ a b⟩
    have hlog : a.flat.paddingLog b.flat.broadcast = a.paddingLog b.broadcast := paddingLog_map
    rw [← hlog]
    exact run?_equal (t := .int .i32) a.flat p (b.flat.term q)

end ColumnAlgebra
