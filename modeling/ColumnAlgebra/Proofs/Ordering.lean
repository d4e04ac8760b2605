import ColumnAlgebra.Proofs.ColumnEquality
import ColumnAlgebra.Proofs.Propagation

/-!
# The order of values, slot by slot

Integers, truth values, characters and texts are in a total order, and the four comparisons of columns
look at it where both slots are present. Equality is asked by another method, which never gives an empty
slot. Main statement: on columns of any lengths the five methods tell of one order: which of them are
empty and which are true at a position hangs together, for two columns and for three.
-/

namespace ColumnAlgebra
set_option autoImplicit false

namespace ElementType

/-- Floating point numbers have a NaN that is not comparable, and nested elements have no order. -/
def TotallyOrdered (t : ElementType) : Prop := (∀ k, t ≠ .float k) ∧ t ≠ .nested

/-- The comparisons of a totally ordered type look at keys in a linear order, one key for each value. -/
theorem exists_key {t : ElementType} (ordered : t.TotallyOrdered) :
    ∃ (κ : Type) (_ : LinearOrder κ) (key : t.Value → κ), Function.Injective key ∧
      ∀ o, t.compare? o = some (o.holds (fun x y => decide (key x < key y))
        fun x y => decide (key x ≤ key y)) := by
  cases t with
  | int k => exact ⟨Int, inferInstance, FixedInt.toInt, fun _ _ => FixedInt.toInt_injective, fun _ => rfl⟩
  | float k => exact absurd rfl (ordered.1 k)
  | bool =>
    have injective : ∀ x y : Bool, x.toNat = y.toNat → x = y := by decide
    exact ⟨Nat, inferInstance, Bool.toNat, injective, fun _ => rfl⟩
  | char => exact ⟨Nat, inferInstance, Char.toNat, fun _ _ => Char.toNat_inj.mp, fun _ => rfl⟩
  | text => exact ⟨String, inferInstance, id, fun _ _ => id, fun _ => rfl⟩
  | nested => exact absurd rfl ordered.2

end ElementType

variable {α κ : Type}

/-- What the comparisons `compare` and the equality `equal` of two columns have to do with each other. -/
structure CoherentOrder (compare : Comparison → Column α → Column α → Column Bool)
    (equal : Column α → Column α → Column Bool) : Prop where
  length : ∀ o a b, (compare o a b).length = max a.length b.length
  of_null : ∀ a b i, i < max a.length b.length → a.slot i = .null ∨ b.slot i = .null →
    (∀ o, (compare o a b).slot i = .null) ∧ (equal a b).slot i ≠ .null
  of_values : ∀ a b i, a.slot i ≠ .null → b.slot i ≠ .null → ∃ less same greater : Bool,
    (compare .lt a b).slot i = .value less ∧ (equal a b).slot i = .value same ∧
    (compare .gt a b).slot i = .value greater ∧ [less, same, greater].count true = 1 ∧
    (compare .gtEq a b).slot i = .value (!less) ∧ (!less) = (greater || same) ∧
    (compare .ltEq a b).slot i = .value (!greater) ∧ (!greater) = (less || same)
  gt_eq_lt : ∀ a b, compare .gt a b = compare .lt b a
  gtEq_eq_ltEq : ∀ a b, compare .gtEq a b = compare .ltEq b a
  lt_of_lt_of_ltEq : ∀ a b c i, (compare .lt a b).slot i = .value true →
    (compare .ltEq b c).slot i = .value true → (compare .lt a c).slot i = .value true
  equal_of_ltEq_of_ltEq : ∀ a b i, (compare .ltEq a b).slot i = .value true →
    (compare .ltEq b a).slot i = .value true → (equal a b).slot i = .value true

section Keys

variable [LinearOrder κ] (key : α → κ)

/-- The comparison of two values by their keys. -/
def Comparison.byKey (o : Comparison) : α → α → Bool :=
  o.holds (fun x y => decide (key x < key y)) fun x y => decide (key x ≤ key y)

/-- The comparison of two columns by the keys of their values. -/
def Column.compareBy (o : Comparison) (a b : Column α) : Column Bool := a.propagate (o.byKey key) b

namespace Comparison

@[simp] theorem byKey_lt (x y : α) : lt.byKey key x y = decide (key x < key y) := rfl

@[simp] theorem byKey_ltEq (x y : α) : ltEq.byKey key x y = decide (key x ≤ key y) := rfl

@[simp] theorem byKey_gt (x y : α) : gt.byKey key x y = decide (key y < key x) := rfl

@[simp] theorem byKey_gtEq (x y : α) : gtEq.byKey key x y = decide (key y ≤ key x) := rfl

/-- Of two values, exactly one of three answers is given, and the weak comparisons follow. -/
theorem byKey_trichotomy {x y : α} {same : Bool} (hsame : same = true ↔ key x = key y) :
    [lt.byKey key x y, same, gt.byKey key x y].count true = 1 ∧
      gtEq.byKey key x y = (!lt.byKey key x y) ∧
      (!lt.byKey key x y) = (gt.byKey key x y || same) ∧
      ltEq.byKey key x y = (!gt.byKey key x y) ∧
      (!gt.byKey key x y) = (lt.byKey key x y || same) := by
  rcases lt_trichotomy (key x) (key y) with h | h | h
  · have hne : same = false := Bool.eq_false_iff.mpr fun he => h.ne (hsame.mp he)
    simp [hne, h, h.le, h.not_gt]
  · simp [hsame.mpr h, h]
  · have hne : same = false := Bool.eq_false_iff.mpr fun he => h.ne' (hsame.mp he)
    simp [hne, h, h.le, h.not_gt]

end Comparison

open Column Comparison

variable {key}

theorem slot_compareBy (o : Comparison) (a b : Column α) (i : Nat) :
    (a.compareBy key o b).slot i = (a.slot i).zipWith (o.byKey key) (b.slot i) :=
  slot_propagate _ a b i

theorem compareBy_eq_true_iff {o : Comparison} {a b : Column α} {i : Nat} :
    (a.compareBy key o b).slot i = .value true ↔
      ∃ x y, a.slot i = .value x ∧ b.slot i = .value y ∧ o.byKey key x y = true := by
  rw [slot_compareBy, Nullable.zipWith_eq_value_iff]

/-- The position is one of the result, as a slot there is present. -/
theorem slot_equal_of_value {eq : α → α → Bool} {a b : Column α} {i : Nat} {x y : α}
    (ha : a.slot i = .value x) (hb : b.slot i = .value y) :
    (a.compareSlots (Nullable.equal eq) b.broadcast).slot i = .value (eq x y) := by
  have hi : i < a.length := lt_length_of_slot_ne_null (by rw [ha]; exact nofun)
  rw [slot_compareSlots _ (lt_max_of_lt_left hi), ha, hb]
  rfl

variable {eq : α → α → Bool}

theorem coherentOrder_compareBy (heq : ∀ x y, eq x y = true ↔ key x = key y) :
    CoherentOrder (fun o a b => a.compareBy key o b)
      (fun a b => a.compareSlots (Nullable.equal eq) b.broadcast) where
  length := fun o a b => length_propagate _ a b
  of_null := by
    intro a b i hi absent
    refine ⟨fun o => ?_, ?_⟩
    · rw [slot_compareBy]
      exact Nullable.zipWith_eq_null_iff.mpr absent
    · rw [slot_compareSlots _ hi]
      exact nofun
  of_values := by
    intro a b i ha hb
    cases hx : a.slot i with
    | null => exact absurd hx ha
    | value x =>
      cases hy : b.slot i with
      | null => exact absurd hy hb
      | value y =>
        obtain ⟨hone, hge, hgeEq, hle, hleEq⟩ := byKey_trichotomy key (heq x y)
        simp only [slot_compareBy, hx, hy, Nullable.zipWith_value, hge, hle]
        exact ⟨_, _, _, rfl, slot_equal_of_value hx hy, rfl, hone, rfl, hgeEq, rfl, hleEq⟩
  gt_eq_lt := fun a b => propagate_comm (fun _ _ => rfl) a b
  gtEq_eq_ltEq := fun a b => propagate_comm (fun _ _ => rfl) a b
  lt_of_lt_of_ltEq := by
    intro a b c i hab hbc
    obtain ⟨x, y, hx, hy, hxy⟩ := compareBy_eq_true_iff.mp hab
    obtain ⟨y', z, hy', hz, hyz⟩ := compareBy_eq_true_iff.mp hbc
    cases hy.symm.trans hy'
    rw [byKey_lt, decide_eq_true_iff] at hxy
    rw [byKey_ltEq, decide_eq_true_iff] at hyz
    exact compareBy_eq_true_iff.mpr ⟨x, z, hx, hz, decide_eq_true (hxy.trans_le hyz)⟩
  equal_of_ltEq_of_ltEq := by
    intro a b i hab hba
    obtain ⟨x, y, hx, hy, hxy⟩ := compareBy_eq_true_iff.mp hab
    obtain ⟨y', x', hy', hx', hyx⟩ := compareBy_eq_true_iff.mp hba
    cases hx.symm.trans hx'
    cases hy.symm.trans hy'
    rw [byKey_ltEq, decide_eq_true_iff] at hxy hyx
    rw [slot_equal_of_value hx hy, (heq x y).mpr (le_antisymm hxy hyx)]

end Keys

open Column

/-- On a totally ordered type the four comparisons of two columns, and equality as a method, never fail,
and tell of one order. An empty slot on either side empties every comparison and leaves equality an
answer. Where both slots are present exactly one of less, equal and greater is true, and the weak
comparisons negate the strict ones. Turning a comparison round turns the operands round, as wholes.
Transitivity and antisymmetry hold position by position, whatever the lengths. -/
theorem coherent_order {t : ElementType} (ordered : t.TotallyOrdered) :
    ∃ compare : Comparison → Column t.Value → Column t.Value → Column Bool,
      (∀ o (a b : Column t.Value) (p q : Passing),
        Operation.run? (.method (.compare o) (a.term p) (b.term q)) =
          some ⟨.ok (.truths (.column (compare o a b))), a.paddingLog b.broadcast⟩) ∧
      (∀ (a b : Column t.Value) (p q : Passing),
        Operation.run? (.method .equal (a.term p) (b.term q)) =
          some ⟨.ok (.truths (.column (a.compareSlots (Nullable.equal t.beq) b.broadcast))),
            a.paddingLog b.broadcast⟩) ∧
      CoherentOrder compare fun a b => a.compareSlots (Nullable.equal t.beq) b.broadcast := by
  obtain ⟨κ, linear, key, injective, known⟩ := t.exists_key ordered
  refine ⟨fun o a b => a.compareBy key o b, ?_, ?_, ?_⟩
  · intro o a b p q
    exact run?_compare (known o) a b p q
  · intro a b p q
    exact run?_equal a p (b.term q)
  · apply coherentOrder_compareBy
    intro x y
    rw [ElementType.beq_eq_true_iff ordered.1, injective.eq_iff]

/-- Three columns of three lengths, with 1, 2 and 2 at the first position. -/
theorem coherent_order_transitive :
    let a : Column (FixedInt .i32) := ⟨[.value (.wrap _ 1)]⟩
    let b : Column (FixedInt .i32) := ⟨[.value (.wrap _ 2), .null]⟩
    let c : Column (FixedInt .i32) := ⟨[.value (.wrap _ 2), .null, .value (.wrap _ 0)]⟩
    let run (o : Comparison) (x y : Column (FixedInt .i32)) :=
      Operation.run? (t := .int .i32) (.method (.compare o) (x.term .lent) (y.term .lent))
    (ElementType.int .i32).TotallyOrdered ∧
    run .lt a b = some ⟨.ok (.truths (.column ⟨[.value true, .null]⟩)), [.padding 1 2]⟩ ∧
    run .ltEq b c = some ⟨.ok (.truths (.column ⟨[.value true, .null, .null]⟩)), [.padding 2 3]⟩ ∧
    ∃ d : Column Bool, run .lt a c = some ⟨.ok (.truths (.column d)), [.padding 1 3]⟩ ∧
      d.slot 0 = .value true := by
  intro a b c run
  have ordered : (ElementType.int .i32).TotallyOrdered := ⟨nofun, nofun⟩
  obtain ⟨compare, hrun, -, coherent⟩ := coherent_order ordered
  have determined {o : Comparison} {x y : Column (FixedInt .i32)} {d : Column Bool}
      {log : List LogRecord} (he : run o x y = some ⟨.ok (.truths (.column d)), log⟩) :
      compare o x y = d := by
    cases (hrun o x y .lent .lent).symm.trans he
    rfl
  have hab : compare .lt a b = ⟨[.value true, .null]⟩ := determined rfl
  have hbc : compare .ltEq b c = ⟨[.value true, .null, .null]⟩ := determined rfl
  have hac := coherent.lt_of_lt_of_ltEq a b c 0 (by rw [hab]; rfl) (by rw [hbc]; rfl)
  exact ⟨ordered, rfl, rfl, compare .lt a c, hrun .lt a c .lent .lent, hac⟩

end ColumnAlgebra
