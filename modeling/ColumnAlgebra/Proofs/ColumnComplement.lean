import ColumnAlgebra.Proofs.ColumnExpression
import ColumnAlgebra.Proofs.FixedInt.Complement

/-!
# Complements and negations of columns

The complement of a column of integers is defined bit by bit and its negation on the integers, as sums
and differences are. Main statement: on columns of any lengths they go together as they do on the
integers. A disjunction less the conjunction is the exclusive disjunction; a complement is a difference
with one scalar to the left, and a negation one with zero, or a complement and one, and these three have
a fault at the same columns.
-/

namespace ColumnAlgebra
set_option autoImplicit false

variable {k : IntKind}

/-- Which integers a function finds words for does not depend on the fault for the others. -/
theorem Nullable.mapM_exact_eq_ok_iff {fault : Fault} {n : FixedInt k → Int}
    {s u : Nullable (FixedInt k)} : s.mapM (fun x => FixedInt.exact fault (n x)) = .ok u ↔
      u.map FixedInt.toInt = s.map n := by
  rw [mapM_eq_ok_iff]
  cases s <;> cases u <;> simp [FixedInt.exact_eq_ok_iff]

def Column.complement (a : Column (FixedInt k)) : Column (FixedInt k) :=
  a.map (Nullable.map FixedInt.complement)

theorem Column.complement_complement (a : Column (FixedInt k)) : a.complement.complement = a := by
  have hslot : (fun s : Nullable (FixedInt k) =>
      (s.map FixedInt.complement).map FixedInt.complement) = id := by
    funext s
    cases s <;> simp
  rw [complement, complement, map_map, hslot, map, List.map_id]

namespace Expression

theorem unary?_neg (hs : k.signed = true) : (ElementType.int k).unary? .neg = some FixedInt.neg :=
  if_pos hs

def complemented (e : Expression (.int k)) : Expression (.int k) :=
  unary .not (fun x => .ok (FixedInt.complement x)) rfl e

/-- Only signed integers have a negation. -/
def negated (hs : k.signed = true) (e : Expression (.int k)) : Expression (.int k) :=
  unary .neg FixedInt.neg (unary?_neg hs) e

def scalarOperate (op : BinaryOperator) (x : FixedInt k) (e : Expression (.int k)) :
    Expression (.int k) :=
  literalLeft op (FixedInt.binary op) (binary?_int k op) (.scalar x) e

def operateScalar (op : BinaryOperator) (e : Expression (.int k)) (x : FixedInt k) :
    Expression (.int k) :=
  literalRight op (FixedInt.binary op) (binary?_int k op) e (.scalar x)

variable {e l r : Expression (.int k)} {a b d : Column (FixedInt k)}

theorem gives_complemented (he : e.Gives a) : e.complemented.Gives a.complement :=
  (runs_unary he).gives_iff.mpr (Column.mapM_ok _ a)

theorem runs_scalarOperate (op : BinaryOperator) (x : FixedInt k) (he : e.Gives a) :
    (scalarOperate op x e).Runs (a.mapM (Nullable.mapM (FixedInt.binary op x))) :=
  runs_scalarLeft (t := .int k) x he

theorem runs_operateScalar (op : BinaryOperator) (he : e.Gives a) (y : FixedInt k) :
    (operateScalar op e y).Runs (a.mapM (Nullable.mapM fun x => FixedInt.binary op x y)) :=
  runs_scalarRight (t := .int k) he y

/-- On the values of a column, the expression looks for the words of the integers that `n` gives. -/
def Computes (e : Expression (.int k)) (fault : Fault) (n : FixedInt k → Int)
    (a : Column (FixedInt k)) : Prop :=
  e.Runs (a.mapM (Nullable.mapM fun x => FixedInt.exact fault (n x)))

namespace Computes

variable {fault : Fault} {n : FixedInt k → Int}

theorem gives_iff (h : e.Computes fault n a) : e.Gives d ↔
    d.length = a.length ∧ ∀ i, (d.slot i).map FixedInt.toInt = (a.slot i).map n := by
  refine (Runs.gives_iff h).trans (Column.mapM_eq_ok_iff.trans (and_congr_right fun _ => ?_))
  exact forall_congr' fun i => Nullable.mapM_exact_eq_ok_iff

theorem fails_iff (h : e.Computes fault n a) : e.Fails ↔
    ∃ i x, a.slot i = .value x ∧ ¬(k.minInt ≤ n x ∧ n x ≤ k.maxInt) := by
  refine (Runs.fails_iff h).trans (Column.exists_mapM_eq_error_iff.trans ?_)
  refine exists_congr fun i => exists_congr fun x => and_congr_right fun _ => ?_
  exact FixedInt.exists_exact_eq_error_iff

theorem eq_of_error (h : e.Computes fault n a) {f : Fault} (hf : e.evaluate.result = .error f) :
    f = fault := by
  obtain ⟨_, _, _, hx⟩ := Column.exists_of_mapM_eq_error ((Runs.error_iff h).mp hf)
  exact FixedInt.eq_of_exact_eq_error hx

theorem maskedBy (h : e.Computes fault n a) (hd : e.Gives d) : d.MaskedBy [a] :=
  Column.maskedBy_of_mapM ((Runs.gives_iff h).mp hd)

end Computes

section Negations

variable (hs : k.signed = true)
include hs

theorem computes_negated (he : e.Gives a) :
    (e.negated hs).Computes .negOverflow (fun x => -x.toInt) a := runs_unary he

theorem computes_zero_sub (he : e.Gives a) :
    (scalarOperate .sub (.wrap k 0) e).Computes .subOverflow (fun x => -x.toInt) a := by
  have hz : (FixedInt.wrap k 0).toInt = 0 := FixedInt.toInt_wrap_of_signed hs (by omega) (by omega)
  have hf : FixedInt.binary .sub (.wrap k 0) = fun x => FixedInt.exact .subOverflow (-x.toInt) :=
    funext fun _ => FixedInt.sub_of_zero hz
  exact (runs_scalarOperate .sub _ he).congr (congrArg (fun f => a.mapM (Nullable.mapM f)) hf)

theorem computes_complement_add_one (he : e.Gives a) :
    (operateScalar .add e.complemented (.wrap k 1)).Computes .addOverflow (fun x => -x.toInt) a := by
  have hz : (FixedInt.wrap k 1).toInt = 1 := FixedInt.toInt_wrap_of_signed hs (by omega) (by omega)
  have hf : (fun x : FixedInt k => x.complement.binary .add (.wrap k 1)) =
      fun x => FixedInt.exact .addOverflow (-x.toInt) :=
    funext fun _ => FixedInt.complement_add_of_one hs hz
  refine (runs_operateScalar .add (gives_complemented he) _).congr ?_
  exact (Column.mapM_map _ a).trans (congrArg (fun f => a.mapM (Nullable.mapM f)) hf)

/-- Whatever operators make a negation, it has a fault exactly where the least integer is. -/
theorem Computes.fails_neg_iff {fault : Fault} (h : e.Computes fault (fun x => -x.toInt) a) :
    e.Fails ↔ ∃ i x, a.slot i = .value x ∧ x.toInt = k.minInt := by
  refine h.fails_iff.trans (exists_congr fun i => exists_congr fun x => and_congr_right fun _ => ?_)
  have hneg := FixedInt.exists_neg_eq_error_iff (x := x) hs
  rwa [FixedInt.neg, FixedInt.exists_exact_eq_error_iff] at hneg

end Negations

theorem gives_negated_negated (hs : k.signed = true) (he : e.Gives a) (hd : (e.negated hs).Gives d) :
    ((e.negated hs).negated hs).Gives a := by
  obtain ⟨hl, hslot⟩ := (computes_negated hs he).gives_iff.mp hd
  refine (computes_negated hs hd).gives_iff.mpr ⟨hl.symm, fun i => ?_⟩
  -- Equal integers have equal negations, and negating twice leaves that of the column.
  have hi := congrArg (Nullable.map fun n : Int => -n) (hslot i)
  rw [Nullable.map_map, Nullable.map_map] at hi
  rw [hi]
  simp only [Int.neg_neg]

/-- A scalar to the left of a difference that makes it the complement. -/
theorem gives_scalar_sub {z : FixedInt k} (hz : z.toInt = k.minInt + k.maxInt) (he : e.Gives a) :
    (scalarOperate .sub z e).Gives a.complement := by
  have hf : FixedInt.binary .sub z = fun x => .ok x.complement :=
    funext fun _ => FixedInt.sub_of_minInt_add_maxInt hz
  have hmap : a.mapM (Nullable.mapM (FixedInt.binary .sub z)) = .ok a.complement := by
    rw [hf, Column.mapM_ok, Column.complement]
  exact (runs_scalarOperate .sub z he).gives_iff.mpr hmap

theorem gives_bitOr_sub_bitAnd (hl : l.Gives a) (hr : r.Gives b) :
    (operate .sub (operate .bitOr l r) (operate .bitAnd l r)).Gives (a.propagate FixedInt.bitXor b) := by
  have hor : (operate .bitOr l r).Gives (a.propagate FixedInt.bitOr b) :=
    gives_binary _ (fun _ _ => rfl) hl hr
  have hand : (operate .bitAnd l r).Gives (a.propagate FixedInt.bitAnd b) :=
    gives_binary _ (fun _ _ => rfl) hl hr
  refine (runs_operate .sub hor hand).gives_iff.mpr ?_
  exact Column.zipWithM_propagate FixedInt.sub_bitAnd_of_bitOr a b

/-- One operator on the complements is the complement of the other one. -/
theorem gives_deMorgan {op dual : BinaryOperator} {f g : FixedInt k → FixedInt k → FixedInt k}
    (hf : ∀ x y, FixedInt.binary op x y = .ok (f x y))
    (hg : ∀ x y, FixedInt.binary dual x y = .ok (g x y))
    (hfg : ∀ x y, (f x y).complement = g x.complement y.complement)
    (hl : l.Gives a) (hr : r.Gives b) :
    ∃ d : Column (FixedInt k), (operate op l r).complemented.Gives d ∧
      (operate dual l.complemented r.complemented).Gives d ∧ d.MaskedBy [a, b] := by
  have hleft : (operate op l r).Gives (a.propagate f b) := gives_binary _ hf hl hr
  have hright : (operate dual l.complemented r.complemented).Gives
      (a.complement.propagate g b.complement) :=
    gives_binary _ hg (gives_complemented hl) (gives_complemented hr)
  have heq : a.complement.propagate g b.complement = (a.propagate f b).complement := by
    simp only [Column.complement, Column.propagate_map, Column.map_propagate, hfg]
  exact ⟨_, gives_complemented hleft, hright.congr heq,
    (Column.maskedBy_map _ _).trans (Column.maskedBy_propagate f a b)⟩

end Expression

open Expression

/-- Between two columns of integers the disjunction less the conjunction is the exclusive disjunction,
without a fault, and the complement turns one connective into the other. Complementing twice changes
nothing. The complement is the difference of -1, or for unsigned integers of the greatest one, and the
column. The negation of signed integers has a fault exactly if the least one occurs, as zero less the
column and the complement plus one have; otherwise the three are equal, and the negation of the negation
is the column. Lengths and empty slots are always those of the operands. -/
theorem complement_laws (a b : Column (FixedInt k)) (p q : Passing) :
    let x : Expression (.int k) := .column a p
    let y : Expression (.int k) := .column b q
    (∃ d : Column (FixedInt k), (operate .sub (operate .bitOr x y) (operate .bitAnd x y)).Gives d ∧
      (operate .bitXor x y).Gives d ∧ d.MaskedBy [a, b]) ∧
    (∃ d : Column (FixedInt k), (operate .bitAnd x y).complemented.Gives d ∧
      (operate .bitOr x.complemented y.complemented).Gives d ∧ d.MaskedBy [a, b]) ∧
    (∃ d : Column (FixedInt k), (operate .bitOr x y).complemented.Gives d ∧
      (operate .bitAnd x.complemented y.complemented).Gives d ∧ d.MaskedBy [a, b]) ∧
    (∃ d : Column (FixedInt k), x.complemented.Gives d ∧ d.MaskedBy [a] ∧
      x.complemented.complemented.Gives a ∧
      (k.signed = true → (scalarOperate .sub (.wrap k (-1)) x).Gives d) ∧
      (k.signed = false → (scalarOperate .sub (.wrap k k.maxInt) x).Gives d)) ∧
    ∀ hs : k.signed = true,
      let negation := x.negated hs
      let difference := scalarOperate .sub (.wrap k 0) x
      let successor := operateScalar .add x.complemented (.wrap k 1)
      (negation.Fails ↔ ∃ i v, a.slot i = .value v ∧ v.toInt = k.minInt) ∧
      (∀ fault, negation.evaluate.result = .error fault →
        fault.message = "attempt to negate with overflow") ∧
      (negation.Fails ↔ difference.Fails) ∧ (negation.Fails ↔ successor.Fails) ∧
      (¬negation.Fails → ∃ d : Column (FixedInt k), negation.Gives d ∧ difference.Gives d ∧
        successor.Gives d ∧ d.MaskedBy [a] ∧ (negation.negated hs).Gives a) := by
  intro x y
  have hx : x.Gives a := gives_column (t := .int k) a p
  have hy : y.Gives b := gives_column (t := .int k) b q
  refine ⟨?_, ?_, ?_, ?_, ?_⟩
  · exact ⟨_, gives_bitOr_sub_bitAnd hx hy, gives_binary _ (fun _ _ => rfl) hx hy,
      Column.maskedBy_propagate _ a b⟩
  · exact gives_deMorgan (fun _ _ => rfl) (fun _ _ => rfl) FixedInt.complement_bitAnd hx hy
  · exact gives_deMorgan (fun _ _ => rfl) (fun _ _ => rfl) FixedInt.complement_bitOr hx hy
  · have hc := gives_complemented hx
    have hcc := (gives_complemented hc).congr a.complement_complement
    refine ⟨_, hc, Column.maskedBy_map _ a, hcc, fun hs => ?_, fun hs => ?_⟩
    · refine gives_scalar_sub ?_ hx
      rw [FixedInt.minInt_add_maxInt hs]
      exact FixedInt.toInt_wrap_of_signed hs (by omega) (by omega)
    · refine gives_scalar_sub ?_ hx
      have hmin : k.minInt = 0 := if_neg (by simp [hs])
      have hmax := FixedInt.maxInt_nonneg k
      rw [FixedInt.toInt_wrap (by omega) (by omega)]
      omega
  · intro hs negation difference successor
    have hn := computes_negated hs hx
    have hd := computes_zero_sub hs hx
    have hc := computes_complement_add_one hs hx
    refine ⟨hn.fails_neg_iff hs, ?_, ?_, ?_, ?_⟩
    · intro fault hfault
      rw [hn.eq_of_error hfault]
      rfl
    · rw [hn.fails_neg_iff hs, hd.fails_neg_iff hs]
    · rw [hn.fails_neg_iff hs, hc.fails_neg_iff hs]
    · intro hfails
      obtain ⟨d, hgives, -⟩ := Runs.exists_gives hn hfails
      have hslots := hn.gives_iff.mp hgives
      exact ⟨d, hgives, hd.gives_iff.mpr hslots, hc.gives_iff.mpr hslots, hn.maskedBy hgives,
        gives_negated_negated hs hx hgives⟩

end ColumnAlgebra
