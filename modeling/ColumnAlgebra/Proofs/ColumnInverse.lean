import ColumnAlgebra.Proofs.ColumnDivision
import ColumnAlgebra.Proofs.ColumnExpression
import ColumnAlgebra.Proofs.FixedInt.Inverse

/-!
# Operators on columns that undo each other

If an operator between two columns of integers has no fault, the operator that undoes it has none on the
result, and it gives the left column back where the right one has a slot. Main statement: so it is for
sums and differences, and for products and quotients wherever the factor is not zero, at every limit of
every kind; and when a difference has a fault.
-/

namespace ColumnAlgebra
set_option autoImplicit false

variable {α β γ ε : Type}

namespace Column

/-- The slots of a column at which the other one has a value that passes the test. -/
def maskWhere (keep : β → Bool) (a : Column α) (b : Column β) : Column α :=
  a.zipWith (Nullable.zipWithOption fun x y => if keep y then some x else none) b.broadcast

def mask (a : Column α) (b : Column β) : Column α := a.maskWhere (fun _ => true) b

theorem length_maskWhere (keep : β → Bool) (a : Column α) (b : Column β) :
    (a.maskWhere keep b).length = max a.length b.length := length_zipWith _ _ _

theorem slot_maskWhere (keep : β → Bool) (a : Column α) (b : Column β) (i : Nat) :
    (a.maskWhere keep b).slot i = (a.slot i).zipWithOption (fun x y => if keep y then some x else none)
      (b.slot i) := slot_zipWith_of_null rfl a b i

section Undo

variable {f : α → β → Except ε γ} {a : Column α} {b : Column β} {c : Column γ}

/-- The slots of two columns and of the result of an operator, with the slot that undoing it should give
back. -/
theorem undo_cases (keep : β → Bool) (h : a.zipWithM (Nullable.zipWithM f) b.broadcast = .ok c) (i : Nat) :
    c.slot i = .null ∧ (a.maskWhere keep b).slot i = .null ∨
      ∃ x y z, b.slot i = .value y ∧ c.slot i = .value z ∧ f x y = .ok z ∧
        (a.maskWhere keep b).slot i = .ofOption (if keep y then some x else none) := by
  rw [slot_maskWhere]
  rcases Nullable.zipWithM_eq_ok_iff.mp ((zipWithM_eq_ok_iff.mp h).2 i) with
    ⟨hc, ha | hb⟩ | ⟨x, y, z, hx, hy, hz, hf⟩
  · exact Or.inl ⟨hc, by rw [ha]; rfl⟩
  · exact Or.inl ⟨hc, by rw [hb]; cases a.slot i <;> rfl⟩
  · exact Or.inr ⟨x, y, z, hy, hz, hf, by rw [hx, hy]; rfl⟩

theorem length_undo (keep : β → Bool) (h : a.zipWithM (Nullable.zipWithM f) b.broadcast = .ok c) :
    (a.maskWhere keep b).length = max c.length b.length := by
  rw [length_maskWhere, (zipWithM_eq_ok_iff.mp h).1]
  omega

theorem zipWithM_undo {g : γ → β → Except ε α} (undo : ∀ x y z, f x y = .ok z → g z y = .ok x)
    (h : a.zipWithM (Nullable.zipWithM f) b.broadcast = .ok c) :
    c.zipWithM (Nullable.zipWithM g) b.broadcast = .ok (a.mask b) := by
  refine zipWithM_eq_ok_iff.mpr ⟨length_undo _ h, fun i => ?_⟩
  rw [mask]
  rcases undo_cases (fun _ => true) h i with ⟨hc, hm⟩ | ⟨x, y, z, hy, hz, hf, hm⟩
  · rw [hc, hm]
    rfl
  · rw [hy, hz, hm, Nullable.zipWithM, undo x y z hf]
    rfl

/-- Like `zipWithM_undo`, where the operation that undoes may leave a slot empty. -/
theorem zipWithOption_undo {g : γ → β → Option α} {keep : β → Bool}
    (undo : ∀ x y z, f x y = .ok z → g z y = if keep y then some x else none)
    (h : a.zipWithM (Nullable.zipWithM f) b.broadcast = .ok c) :
    c.zipWith (Nullable.zipWithOption g) b.broadcast = a.maskWhere keep b := by
  apply ext_slot
  · rw [length_zipWith, zipLength_column, length_undo keep h]
  · intro i _
    rw [slot_zipWith_of_null rfl]
    rcases undo_cases keep h i with ⟨hc, hm⟩ | ⟨x, y, z, hy, hz, hf, hm⟩
    · rw [hc, hm]
      rfl
    · rw [hy, hz, hm, Nullable.zipWithOption, undo x y z hf]

end Undo

end Column

open Column Expression

variable {k : IntKind} {a b c : Column (FixedInt k)} {x y : Expression (.int k)}

theorem gives_operate_undo {op inverse : BinaryOperator}
    (undo : ∀ u v w : FixedInt k, u.binary op v = .ok w → w.binary inverse v = .ok u)
    (hx : x.Gives a) (hy : y.Gives b) (h : ¬(operate op x y).Fails) :
    (operate inverse (operate op x y) y).Gives (a.mask b) := by
  obtain ⟨c, hc, hz⟩ := exists_gives_operate hx hy h
  exact (runs_operate inverse hc hy).gives_iff.mpr (zipWithM_undo undo hz)

theorem fails_div_of_mul_iff (hx : x.Gives a) (hy : y.Gives b) (h : ¬(operate .mul x y).Fails) :
    (operate .div (operate .mul x y) y).Fails ↔
      ∃ i u v, a.slot i = .value u ∧ b.slot i = .value v ∧ v.toInt = 0 := by
  obtain ⟨c, hc, hz⟩ := exists_gives_operate hx hy h
  rw [fails_operate_iff hc hy]
  refine exists_congr fun i => ?_
  have hs := (Column.zipWithM_eq_ok_iff.mp hz).2 i
  constructor
  · rintro ⟨w, v, hw, hv, fault⟩
    rw [hw, hv] at hs
    rcases Nullable.zipWithM_eq_ok_iff.mp hs with ⟨hnull, -⟩ | ⟨u, _, _, hu, ⟨⟩, ⟨⟩, hmul⟩
    · cases hnull
    · exact ⟨u, v, hu, hv, (FixedInt.exists_div_eq_error_iff_of_mul hmul).mp fault⟩
  · rintro ⟨u, v, hu, hv, hzero⟩
    rw [hu, hv] at hs
    rcases Nullable.zipWithM_eq_ok_iff.mp hs with ⟨-, hnull⟩ | ⟨_, _, w, ⟨⟩, ⟨⟩, hw, hmul⟩
    · rcases hnull with hnull | hnull <;> cases hnull
    · exact ⟨w, v, hw, hv, (FixedInt.exists_div_eq_error_iff_of_mul hmul).mpr hzero⟩

theorem fails_sub_iff_exists_lt (hs : k.signed = false) (hx : x.Gives a) (hy : y.Gives b) :
    (operate .sub x y).Fails ↔
      ∃ i, (a.propagate (fun u v => decide (u.toInt < v.toInt)) b).slot i = .value true := by
  rw [fails_operate_iff hx hy]
  refine exists_congr fun i => ?_
  rw [slot_propagate, Nullable.zipWith_eq_value_iff]
  simp only [decide_eq_true_iff]
  refine exists_congr fun u => exists_congr fun v => ?_
  exact and_congr_right fun _ => and_congr_right fun _ => FixedInt.exists_sub_eq_error_iff_lt hs

theorem fails_sub_iff_out_of_range (hx : x.Gives a) (hy : y.Gives b) :
    (operate .sub x y).Fails ↔ ∃ i u v, a.slot i = .value u ∧ b.slot i = .value v ∧
      ¬(k.minInt ≤ u.toInt - v.toInt ∧ u.toInt - v.toInt ≤ k.maxInt) := by
  rw [fails_operate_iff hx hy]
  refine exists_congr fun i => exists_congr fun u => exists_congr fun v => ?_
  exact and_congr_right fun _ => and_congr_right fun _ => FixedInt.exists_sub_eq_error_iff

/-- If a sum of two columns of integers has no fault, taking the right column away again has none, and
gives the left one back where the right one has a slot; so does adding after taking away. After a
product without a fault, checked division by the factor gives the column back where the factor is a
number other than zero, and division has a fault just where it is zero. A difference of unsigned
integers has a fault exactly if the left column is somewhere less than the right one, and one of signed
integers exactly if it is out of range somewhere, which it never is between integers of one sign. -/
theorem inverse_laws (a b : Column (FixedInt k)) (p q : Passing) :
    let x : Expression (.int k) := .column a p
    let y : Expression (.int k) := .column b q
    (¬(operate .add x y).Fails → (operate .sub (operate .add x y) y).Gives (a.mask b)) ∧
    (¬(operate .sub x y).Fails → (operate .add (operate .sub x y) y).Gives (a.mask b)) ∧
    (¬(operate .mul x y).Fails →
      (∃ c, (operate .mul x y).Gives c ∧
        Operation.run? (t := .int k) (.method (.checked .div) (c.term p) (b.term q)) =
          some ⟨.ok (integers (a.maskWhere (fun v => v.toInt != 0) b)), c.paddingLog b.broadcast⟩) ∧
      ((operate .div (operate .mul x y) y).Fails ↔
        ∃ i u v, a.slot i = .value u ∧ b.slot i = .value v ∧ v.toInt = 0)) ∧
    (k.signed = false → ∃ d : Column Bool,
      Operation.run? (t := .int k) (.method (.compare .lt) (a.term p) (b.term q)) =
        some ⟨.ok (.truths (.column d)), a.paddingLog b.broadcast⟩ ∧
      ((operate .sub x y).Fails ↔ ∃ i, d.slot i = .value true)) ∧
    (k.signed = true →
      ((operate .sub x y).Fails ↔ ∃ i u v, a.slot i = .value u ∧ b.slot i = .value v ∧
        ¬(k.minInt ≤ u.toInt - v.toInt ∧ u.toInt - v.toInt ≤ k.maxInt)) ∧
      ∀ i u v, a.slot i = .value u → b.slot i = .value v → (0 ≤ u.toInt ↔ 0 ≤ v.toInt) →
        k.minInt ≤ u.toInt - v.toInt ∧ u.toInt - v.toInt ≤ k.maxInt) := by
  intro x y
  have hx : x.Gives a := gives_column (t := .int k) a p
  have hy : y.Gives b := gives_column (t := .int k) b q
  refine ⟨?_, ?_, ?_, ?_, ?_⟩
  · exact gives_operate_undo (fun _ _ _ => FixedInt.sub_of_add) hx hy
  · exact gives_operate_undo (fun _ _ _ => FixedInt.add_of_sub) hx hy
  · intro h
    refine ⟨?_, fails_div_of_mul_iff hx hy h⟩
    obtain ⟨c, hc, hz⟩ := exists_gives_operate hx hy h
    refine ⟨c, hc, ?_⟩
    have hd : c.checked .div b = a.maskWhere (fun v => v.toInt != 0) b :=
      zipWithOption_undo (fun _ _ _ => FixedInt.checked_div_of_mul) hz
    rw [← hd]
    exact run?_checked .div c b p q
  · intro hs
    exact ⟨_, run?_compare (t := .int k) rfl a b p q, fails_sub_iff_exists_lt hs hx hy⟩
  · intro hs
    exact ⟨fails_sub_iff_out_of_range hx hy, fun _ _ _ _ _ => FixedInt.sub_mem_range hs⟩

/-- The least integer has a product with 1, and a zero elsewhere still makes the quotient a fault. -/
theorem inverse_laws_at_minimum :
    let k : IntKind := ⟨true, .w8⟩
    let a : Column (FixedInt k) := ⟨[.value (.wrap k (-128)), .value (.wrap k 3), .null]⟩
    let b : Column (FixedInt k) := ⟨[.value (.wrap k 1), .value (.wrap k 0)]⟩
    let x : Expression (.int k) := .column a .lent
    let y : Expression (.int k) := .column b .lent
    ¬(operate .mul x y).Fails ∧ (operate .div (operate .mul x y) y).Fails := by
  intro k a b x y
  have hmul : ¬(operate .mul x y).Fails := by
    rintro ⟨fault, hfault⟩
    have hproduct : a.zipWithM (Nullable.zipWithM FixedInt.mul) b.broadcast =
        .ok ⟨[.value (.wrap k (-128)), .value (.wrap k 0), .null]⟩ := by cbv
    have hruns := runs_operate (k := k) .mul (gives_column (t := .int k) a .lent)
      (gives_column (t := .int k) b .lent)
    cases (hruns.gives_iff.mpr hproduct).symm.trans hfault
  obtain ⟨-, -, hproduct, -⟩ := inverse_laws a b .lent .lent
  exact ⟨hmul, (hproduct hmul).2.mpr ⟨1, .wrap k 3, .wrap k 0, rfl, rfl, by decide⟩⟩

end ColumnAlgebra
