import ColumnAlgebra.Proofs.ColumnExpression

/-!
# Order and grouping of the operands

The operands of an operator between columns may be exchanged and grouped in another way, if those of the
operator on values may. Each node pads its operands, so the groupings are padded at different nodes; but
the padding is empty, and an empty slot empties the result in every order. Main statement: sums and
products keep their outcome, faults included, when the operands are exchanged, and their result when they
are grouped differently, if both groupings have one; the bitwise operators have all the laws that they
have on words.
-/

namespace ColumnAlgebra
set_option autoImplicit false

variable {α ε : Type}

/-- Both groupings have the same result, if both have one. -/
def AssociativeWhereDefined (f : α → α → Except ε α) : Prop :=
  ∀ x y z m n d e, f x y = .ok m → f m z = .ok d → f y z = .ok n → f x n = .ok e → d = e

theorem Nullable.zipWithM_assoc_of_ok {f : α → α → Except ε α} (h : AssociativeWhereDefined f)
    {s r u m n d e : Nullable α} (hm : s.zipWithM f r = .ok m) (hd : m.zipWithM f u = .ok d)
    (hn : r.zipWithM f u = .ok n) (he : s.zipWithM f n = .ok e) : d = e := by
  have hdnull := eq_null_iff_of_zipWithM hd
  have henull := eq_null_iff_of_zipWithM he
  rw [eq_null_iff_of_zipWithM hm] at hdnull
  rw [eq_null_iff_of_zipWithM hn, ← or_assoc] at henull
  -- Both results are empty at the same operands, so only the case of three values is left.
  rcases zipWithM_eq_ok_iff.mp hd with ⟨rfl, -⟩ | ⟨_, z, d', rfl, rfl, rfl, hd'⟩
  · exact (henull.mpr (hdnull.mp rfl)).symm
  · rcases zipWithM_eq_ok_iff.mp he with ⟨rfl, -⟩ | ⟨x, _, e', rfl, rfl, rfl, he'⟩
    · exact hdnull.mpr (henull.mp rfl)
    · rcases zipWithM_eq_ok_iff.mp hm with ⟨⟨⟩, -⟩ | ⟨_, y, m', ⟨⟩, rfl, ⟨⟩, hm'⟩
      rcases zipWithM_eq_ok_iff.mp hn with ⟨⟨⟩, -⟩ | ⟨_, _, n', ⟨⟩, ⟨⟩, ⟨⟩, hn'⟩
      exact congrArg value (h x y z _ _ d' e' hm' hd' hn' he')

theorem Column.zipWithM_assoc_of_ok {f : α → α → Except ε α} (h : AssociativeWhereDefined f)
    {a b c m n d e : Column α} (hm : a.zipWithM (Nullable.zipWithM f) b.broadcast = .ok m)
    (hd : m.zipWithM (Nullable.zipWithM f) c.broadcast = .ok d)
    (hn : b.zipWithM (Nullable.zipWithM f) c.broadcast = .ok n)
    (he : a.zipWithM (Nullable.zipWithM f) n.broadcast = .ok e) : d = e := by
  obtain ⟨hml, hms⟩ := zipWithM_eq_ok_iff.mp hm
  obtain ⟨hdl, hds⟩ := zipWithM_eq_ok_iff.mp hd
  obtain ⟨hnl, hns⟩ := zipWithM_eq_ok_iff.mp hn
  obtain ⟨hel, hes⟩ := zipWithM_eq_ok_iff.mp he
  apply ext_slot
  · omega
  · intro i _
    exact Nullable.zipWithM_assoc_of_ok h (hms i) (hds i) (hns i) (hes i)

namespace BinaryOperator

/-- The operators of a ring but for the difference. -/
def ring : List BinaryOperator := [add, mul]

def bitwise : List BinaryOperator := [bitAnd, bitOr, bitXor]

/-- An operator, and another one over which it distributes. -/
def distributive : List (BinaryOperator × BinaryOperator) :=
  [(bitAnd, bitOr), (bitAnd, bitXor), (bitOr, bitAnd)]

theorem forall_ring_iff {P : BinaryOperator → Prop} : (∀ op ∈ ring, P op) ↔ P add ∧ P mul := by
  simp [ring]

theorem forall_bitwise_iff {P : BinaryOperator → Prop} :
    (∀ op ∈ bitwise, P op) ↔ P bitAnd ∧ P bitOr ∧ P bitXor := by
  simp [bitwise]

theorem forall_distributive_iff {P : BinaryOperator × BinaryOperator → Prop} :
    (∀ ops ∈ distributive, P ops) ↔ P (bitAnd, bitOr) ∧ P (bitAnd, bitXor) ∧ P (bitOr, bitAnd) := by
  simp [distributive]

end BinaryOperator

open BinaryOperator (ring bitwise distributive)

/-- The bitwise operators of an element type have no faults, and the laws of truth values. -/
structure LawfulBits (t : ElementType) : Prop where
  reorder : ∀ op ∈ bitwise, ∃ u : t.Value → t.Value → t.Value,
    t.binary? op = some (fun x y => .ok (u x y)) ∧ (∀ x y, u x y = u y x) ∧
    ∀ x y z, u (u x y) z = u x (u y z)
  distrib : ∀ ops ∈ distributive, ∃ u v : t.Value → t.Value → t.Value,
    t.binary? ops.1 = some (fun x y => .ok (u x y)) ∧
    t.binary? ops.2 = some (fun x y => .ok (v x y)) ∧
    ∀ x y z, u x (v y z) = v (u x y) (u x z)

theorem FixedInt.or_and_distrib {w : Nat} (x y z : BitVec w) :
    x ||| (y &&& z) = (x ||| y) &&& (x ||| z) := by
  apply BitVec.eq_of_getLsbD_eq
  intro i _
  simp only [BitVec.getLsbD_and, BitVec.getLsbD_or, Bool.or_and_distrib_left]

theorem FixedInt.and_xor_distrib {w : Nat} (x y z : BitVec w) :
    x &&& (y ^^^ z) = (x &&& y) ^^^ (x &&& z) := by
  apply BitVec.eq_of_getLsbD_eq
  intro i _
  simp only [BitVec.getLsbD_and, BitVec.getLsbD_xor, Bool.and_xor_distrib_left]

theorem lawfulBits_int (k : IntKind) : LawfulBits (.int k) where
  reorder := by
    refine BinaryOperator.forall_bitwise_iff.mpr ⟨?_, ?_, ?_⟩
    · exact ⟨FixedInt.bitAnd, rfl, fun x y => congrArg FixedInt.mk (BitVec.and_comm x.word y.word),
        fun x y z => congrArg FixedInt.mk (BitVec.and_assoc x.word y.word z.word)⟩
    · exact ⟨FixedInt.bitOr, rfl, fun x y => congrArg FixedInt.mk (BitVec.or_comm x.word y.word),
        fun x y z => congrArg FixedInt.mk (BitVec.or_assoc x.word y.word z.word)⟩
    · exact ⟨FixedInt.bitXor, rfl, fun x y => congrArg FixedInt.mk (BitVec.xor_comm x.word y.word),
        fun x y z => congrArg FixedInt.mk (BitVec.xor_assoc x.word y.word z.word)⟩
  distrib := by
    refine BinaryOperator.forall_distributive_iff.mpr ⟨?_, ?_, ?_⟩
    · exact ⟨FixedInt.bitAnd, FixedInt.bitOr, rfl, rfl,
        fun x y z => congrArg FixedInt.mk BitVec.and_or_distrib_left⟩
    · exact ⟨FixedInt.bitAnd, FixedInt.bitXor, rfl, rfl,
        fun x y z => congrArg FixedInt.mk (FixedInt.and_xor_distrib x.word y.word z.word)⟩
    · exact ⟨FixedInt.bitOr, FixedInt.bitAnd, rfl, rfl,
        fun x y z => congrArg FixedInt.mk (FixedInt.or_and_distrib x.word y.word z.word)⟩

theorem lawfulBits_bool : LawfulBits .bool where
  reorder := by
    refine BinaryOperator.forall_bitwise_iff.mpr ⟨?_, ?_, ?_⟩
    · exact ⟨Bool.and, rfl, Bool.and_comm, Bool.and_assoc⟩
    · exact ⟨Bool.or, rfl, Bool.or_comm, Bool.or_assoc⟩
    · exact ⟨Bool.xor, rfl, Bool.xor_comm, Bool.xor_assoc⟩
  distrib := by
    refine BinaryOperator.forall_distributive_iff.mpr ⟨?_, ?_, ?_⟩
    · exact ⟨Bool.and, Bool.or, rfl, rfl, Bool.and_or_distrib_left⟩
    · exact ⟨Bool.and, Bool.xor, rfl, rfl, Bool.and_xor_distrib_left⟩
    · exact ⟨Bool.or, Bool.and, rfl, rfl, Bool.or_and_distrib_left⟩

namespace FixedInt

variable {k : IntKind}

theorem add_comm (x y : FixedInt k) : x.add y = y.add x := by
  rw [add, Int.add_comm, add]

theorem mul_comm (x y : FixedInt k) : x.mul y = y.mul x := by
  rw [mul, Int.mul_comm, mul]

theorem associativeWhereDefined_add : AssociativeWhereDefined (add (k := k)) := by
  intro x y z m n d e hm hd hn he
  apply toInt_injective
  rw [toInt_of_exact hd, toInt_of_exact hm, toInt_of_exact he, toInt_of_exact hn, Int.add_assoc]

theorem associativeWhereDefined_mul : AssociativeWhereDefined (mul (k := k)) := by
  intro x y z m n d e hm hd hn he
  apply toInt_injective
  rw [toInt_of_exact hd, toInt_of_exact hm, toInt_of_exact he, toInt_of_exact hn, Int.mul_assoc]

end FixedInt

namespace Expression

variable {t : ElementType} {op : BinaryOperator} {f : t.Value → t.Value → Except Fault t.Value}
  {known : t.binary? op = some f} {x y z : Expression t} {a b c d : Column t.Value}

theorem result_binary_comm (h : ∀ v w, f v w = f w v) (hx : x.Gives a) (hy : y.Gives b) :
    (binary op f known x y).evaluate.result = (binary op f known y x).evaluate.result := by
  rw [runs_binary hx hy, runs_binary hy hx, Column.zipWithM_comm h]

theorem maskedBy_pair (hx : x.Gives a) (hy : y.Gives b) (h : (binary op f known x y).Gives d) :
    d.MaskedBy [a, b] :=
  Column.maskedBy_of_zipWithM ((runs_binary hx hy).gives_iff.mp h)

section Triples

variable (hx : x.Gives a) (hy : y.Gives b) (hz : z.Gives c)
include hx hy hz

theorem gives_left_iff : (binary op f known (binary op f known x y) z).Gives d ↔
    ∃ m, a.zipWithM (Nullable.zipWithM f) b.broadcast = .ok m ∧
      m.zipWithM (Nullable.zipWithM f) c.broadcast = .ok d := by
  rw [gives_binary_iff (runs_binary hx hy) (w := .ok c) hz]
  constructor
  · rintro ⟨m, _, hm, ⟨⟩, hd⟩
    exact ⟨m, hm, hd⟩
  · rintro ⟨m, hm, hd⟩
    exact ⟨m, c, hm, rfl, hd⟩

theorem gives_right_iff : (binary op f known x (binary op f known y z)).Gives d ↔
    ∃ n, b.zipWithM (Nullable.zipWithM f) c.broadcast = .ok n ∧
      a.zipWithM (Nullable.zipWithM f) n.broadcast = .ok d := by
  rw [gives_binary_iff (z := .ok a) hx (runs_binary hy hz)]
  constructor
  · rintro ⟨_, n, ⟨⟩, hn, hd⟩
    exact ⟨n, hn, hd⟩
  · rintro ⟨n, hn, hd⟩
    exact ⟨a, n, rfl, hn, hd⟩

theorem maskedBy_left (h : (binary op f known (binary op f known x y) z).Gives d) :
    d.MaskedBy [a, b, c] := by
  obtain ⟨m, hm, hd⟩ := (gives_left_iff hx hy hz).mp h
  exact (Column.maskedBy_of_zipWithM hd).triple_left (Column.maskedBy_of_zipWithM hm)

theorem maskedBy_right (h : (binary op f known x (binary op f known y z)).Gives d) :
    d.MaskedBy [a, b, c] := by
  obtain ⟨n, hn, hd⟩ := (gives_right_iff hx hy hz).mp h
  exact (Column.maskedBy_of_zipWithM hd).triple_right (Column.maskedBy_of_zipWithM hn)

theorem eq_of_gives {e : Column t.Value} (h : AssociativeWhereDefined f)
    (hd : (binary op f known (binary op f known x y) z).Gives d)
    (he : (binary op f known x (binary op f known y z)).Gives e) : d = e := by
  obtain ⟨m, hm, hd⟩ := (gives_left_iff hx hy hz).mp hd
  obtain ⟨n, hn, he⟩ := (gives_right_iff hx hy hz).mp he
  exact Column.zipWithM_assoc_of_ok h hm hd hn he

end Triples

end Expression

open Expression

/-- What becomes of the operators between columns of a type when their operands change places. -/
structure Reordering (t : ElementType) : Prop where
  exchange : ∀ op ∈ ring ++ bitwise, ∀ f (known : t.binary? op = some f)
    (a b : Column t.Value) p q, (binary op f known (column a p) (column b q)).evaluate.result =
      (binary op f known (column b q) (column a p)).evaluate.result
  regroup : ∀ op ∈ bitwise, ∃ f, ∃ known : t.binary? op = some f, ∀ (a b c : Column t.Value) p q r,
    ∃ d, (binary op f known (binary op f known (column a p) (column b q)) (column c r)).Gives d ∧
      (binary op f known (column a p) (binary op f known (column b q) (column c r))).Gives d
  distribute : ∀ ops ∈ distributive, ∃ f g, ∃ outer : t.binary? ops.1 = some f,
    ∃ inner : t.binary? ops.2 = some g, ∀ (a b c : Column t.Value) p q r, ∃ d,
      (binary ops.1 f outer (column a p) (binary ops.2 g inner (column b q) (column c r))).Gives d ∧
      (binary ops.2 g inner (binary ops.1 f outer (column a p) (column b q))
        (binary ops.1 f outer (column a p) (column c r))).Gives d ∧
      d.MaskedBy [a, b, c]
  /-- Only one of the groupings may have a fault. -/
  regroup_of_gives : ∀ op ∈ ring, ∀ f (known : t.binary? op = some f)
    (a b c d e : Column t.Value) p q r,
    (binary op f known (binary op f known (column a p) (column b q)) (column c r)).Gives d →
    (binary op f known (column a p) (binary op f known (column b q) (column c r))).Gives e → d = e
  masked : ∀ op f (known : t.binary? op = some f) (a b c d : Column t.Value) p q r,
    ((binary op f known (column a p) (column b q)).Gives d → d.MaskedBy [a, b]) ∧
    ((binary op f known (binary op f known (column a p) (column b q)) (column c r)).Gives d →
      d.MaskedBy [a, b, c]) ∧
    ((binary op f known (column a p) (binary op f known (column b q) (column c r))).Gives d →
      d.MaskedBy [a, b, c])

theorem LawfulBits.reordering {t : ElementType} (bits : LawfulBits t)
    (arithmetic : ∀ op ∈ ring, ∀ f, t.binary? op = some f →
      (∀ x y, f x y = f y x) ∧ AssociativeWhereDefined f) : Reordering t where
  exchange := by
    intro op hop f known a b p q
    refine result_binary_comm ?_ (gives_column a p) (gives_column b q)
    rcases List.mem_append.mp hop with hop | hop
    · exact (arithmetic op hop f known).1
    · obtain ⟨u, hu, comm, -⟩ := bits.reorder op hop
      cases known.symm.trans hu
      exact fun x y => congrArg Except.ok (comm x y)
  regroup := by
    intro op hop
    obtain ⟨u, hu, -, assoc⟩ := bits.reorder op hop
    refine ⟨_, hu, fun a b c p q r => ?_⟩
    have hleft := gives_binary hu (fun _ _ => rfl)
      (gives_binary hu (fun _ _ => rfl) (gives_column a p) (gives_column b q))
      (gives_column c r)
    have hright := gives_binary hu (fun _ _ => rfl) (gives_column a p)
      (gives_binary hu (fun _ _ => rfl) (gives_column b q) (gives_column c r))
    exact ⟨_, hleft.congr (Column.propagate_assoc assoc a b c), hright⟩
  distribute := by
    intro ops hops
    obtain ⟨u, v, hu, hv, distrib⟩ := bits.distrib ops hops
    refine ⟨_, _, hu, hv, fun a b c p q r => ?_⟩
    have hleft := gives_binary hu (fun _ _ => rfl) (gives_column a p)
      (gives_binary hv (fun _ _ => rfl) (gives_column b q) (gives_column c r))
    have hright := gives_binary hv (fun _ _ => rfl)
      (gives_binary hu (fun _ _ => rfl) (gives_column a p) (gives_column b q))
      (gives_binary hu (fun _ _ => rfl) (gives_column a p) (gives_column c r))
    exact ⟨_, hleft, hright.congr (Column.propagate_distrib distrib a b c).symm,
      (Column.maskedBy_propagate u a _).triple_right (Column.maskedBy_propagate v b c)⟩
  regroup_of_gives := by
    intro op hop f known a b c d e p q r
    exact eq_of_gives (gives_column a p) (gives_column b q) (gives_column c r)
      (arithmetic op hop f known).2
  masked := by
    intro op f known a b c d p q r
    have ha := gives_column a p
    have hb := gives_column b q
    have hc := gives_column c r
    exact ⟨maskedBy_pair ha hb, maskedBy_left ha hb hc, maskedBy_right ha hb hc⟩

/-- Between columns of integers of any lengths, sums, products and the bitwise operators have the same
outcome when the operands are exchanged: the same column, or the same fault. A bitwise operator between
three columns gives the same column in both groupings, without a fault, as it does between columns of
truths, and the distributive laws hold. Sums and products give the same column in both groupings wherever
both give one. In whatever order and grouping, the result is as long as the longest column and is empty
where one of the columns is. -/
theorem reordering_laws : (∀ k, Reordering (.int k)) ∧ Reordering .bool := by
  refine ⟨fun k => (lawfulBits_int k).reordering ?_, lawfulBits_bool.reordering ?_⟩
  · refine BinaryOperator.forall_ring_iff.mpr ⟨?_, ?_⟩
    · rintro f ⟨⟩
      exact ⟨FixedInt.add_comm, FixedInt.associativeWhereDefined_add⟩
    · rintro f ⟨⟩
      exact ⟨FixedInt.mul_comm, FixedInt.associativeWhereDefined_mul⟩
  · exact BinaryOperator.forall_ring_iff.mpr ⟨nofun, nofun⟩

end ColumnAlgebra
