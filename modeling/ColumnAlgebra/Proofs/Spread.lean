import ColumnAlgebra.Proofs.Availability
import ColumnAlgebra.Proofs.Tabulation

/-!
# A single slot opposite to a column

A slot to the right of a column is repeated at every position, a slot to the left is applied to every
slot, and the null literal looks at no slot at all. Each of these routes gives what the column of
copies of the slot gives, faults included, and writes no record. Main statement: the operators and the
methods of columns cannot tell a single slot from the column of its copies.
-/

namespace ColumnAlgebra
set_option autoImplicit false

variable {α β γ ε : Type}

namespace Column

/-- The column of `n` copies of a slot. -/
def filled (s : Nullable α) (n : Nat) : Column α := ⟨List.replicate n s⟩

@[simp] theorem length_filled (s : Nullable α) (n : Nat) : (filled s n).length = n := by
  simp [filled, length]

theorem slot_filled (s : Nullable α) {n i : Nat} (h : i < n) : (filled s n).slot i = s := by
  simp [filled, slot, h]

theorem zipLength_filled (c : Column α) (s : Nullable β) :
    c.zipLength (filled s c.length).broadcast = c.length := by simp

theorem paddingLog_filled (c : Column α) (s : Nullable β) :
    c.paddingLog (filled s c.length).broadcast = [] := paddingLog_of_length_eq (length_filled s _)

theorem combine_filled (f : Nullable α → Nullable β → Except ε (Nullable γ)) (c : Column α)
    (s : Nullable β) : c.combine f (filled s c.length).broadcast = c.combine f s.broadcast := by
  have hz : c.zipWithM f (filled s c.length).broadcast = c.zipWithM f s.broadcast := by
    rw [zipWithM_eq_tabulate, zipWithM_eq_tabulate, zipLength_filled]
    apply tabulate_congr
    intro i hi
    exact congrArg (f (c.slot i)) (slot_filled s hi)
  unfold combine
  rw [hz, paddingLog_filled]
  rfl

theorem meet_filled (f : Nullable α → Nullable β → Nullable γ) (c : Column α) (s : Nullable β) :
    (c.meet f (filled s c.length).broadcast : Outcome ε _) = c.meet f s.broadcast := by
  have hz : c.zipWith f (filled s c.length).broadcast = c.zipWith f s.broadcast := by
    apply ext_slot
    · simp
    · intro i hi
      rw [length_zipWith, zipLength_filled] at hi
      rw [slot_zipWith (by rwa [zipLength_filled]), slot_zipWith (by simpa using hi)]
      exact congrArg (f (c.slot i)) (slot_filled s hi)
  unfold meet
  rw [hz, paddingLog_filled]
  rfl

theorem filled_combine (f : Nullable α → Nullable β → Except ε (Nullable γ)) (s : Nullable α)
    (d : Column β) : (filled s d.length).combine f d.broadcast = .ofExcept (d.mapM (f s)) := by
  have hz : (filled s d.length).zipWithM f d.broadcast = d.mapM (f s) := by
    rw [zipWithM_eq_tabulate, mapM_eq_tabulate]
    simp only [zipLength_column, length_filled, Nat.max_self]
    apply tabulate_congr
    intro i hi
    rw [slot_filled s hi]
    rfl
  unfold combine
  rw [hz, paddingLog_of_length_eq (length_filled s _).symm]
  rfl

theorem mapM_null_left (f : α → β → Except ε γ) (d : Column β) :
    d.mapM (Nullable.zipWithM f .null) = .ok (nulls d.length) := by
  rw [mapM_eq_tabulate, tabulate_eq_ok_iff]
  refine ⟨length_nulls _, ?_⟩
  intro i _
  rw [slot_nulls]
  rfl

theorem combine_null_right (f : α → β → Except ε γ) (c : Column α) :
    c.combine (Nullable.zipWithM f) (Nullable.null : Nullable β).broadcast = .ok (nulls c.length) := by
  have hz : c.zipWithM (Nullable.zipWithM f) (Nullable.null : Nullable β).broadcast =
      .ok (nulls c.length) := by
    rw [zipWithM_eq_tabulate, tabulate_eq_ok_iff]
    refine ⟨length_nulls _, ?_⟩
    intro i _
    rw [slot_nulls]
    exact Nullable.zipWithM_null_right f (c.slot i)
  unfold combine
  rw [hz]
  rfl

def term (c : Column α) (p : Passing) : Term α := .operand (.column c p)

end Column

section Routes

variable {f : α → α → Except Fault α} {s : Term α} {v : Nullable α}

/-- The null literal looks at no slot, and gives what the empty slot gives. -/
theorem Operand.combineLiteral_eq_combine (f : α → α → Except Fault α) (o : Operand α)
    (l : Literal α) : o.combineLiteral f l = o.combine f (.nullable l.slot) := by
  cases l with
  | scalar a => rfl
  | null =>
    cases o with
    | nullable s =>
      have hn := Nullable.zipWithM_null_right f s
      simp only [combine, Nullable.combine, Literal.slot, hn]
      rfl
    | handle h p =>
      have hn := Nullable.zipWithM_null_right f h.get
      simp only [combine, Nullable.combine, Literal.slot, hn]
      rfl
    | column c p =>
      have hn := Column.combine_null_right f c
      simp only [combine, broadcast, Literal.slot, hn]
      rfl

theorem Literal.combine_eq_combine (f : α → α → Except Fault α) (l : Literal α) (o : Operand α) :
    l.combine f o = Operand.combine f (.nullable l.slot) o := by
  cases l with
  | scalar a => rfl
  | null =>
    cases o with
    | nullable s => rfl
    | handle h p => rfl
    | column c p =>
      have hn := Column.mapM_null_left f c
      simp only [Operand.combine, Nullable.combine, Literal.slot, hn]
      rfl

theorem Term.broadcast_of_slot? (single : s.slot? = some v) : s.broadcast = v.broadcast := by
  rcases s with (_ | _ | _) | _
  · cases single
    rfl
  · cases single
    rfl
  · cases single
  · cases single
    rfl

theorem combine?_column_left (single : s.slot? = some v) (c : Column α) (p : Passing) :
    Term.combine? f (c.term p) s =
      some (.column <$> c.combine (Nullable.zipWithM f) v.broadcast) := by
  rcases s with (_ | _ | _) | l
  · cases single
    rfl
  · cases single
    rfl
  · cases single
  · cases single
    exact congrArg some (Operand.combineLiteral_eq_combine f _ l)

theorem combine?_column_right (single : s.slot? = some v) (c : Column α) (p : Passing) :
    Term.combine? f s (c.term p) = some (.column <$> .ofExcept (c.mapM (v.zipWithM f))) := by
  rcases s with (_ | _ | _) | l
  · cases single
    exact congrArg some (Outcome.ofExcept_map _ _)
  · cases single
    exact congrArg some (Outcome.ofExcept_map _ _)
  · cases single
  · cases single
    rw [← Outcome.ofExcept_map]
    exact congrArg some (Literal.combine_eq_combine f l _)

theorem combine?_columns (c d : Column α) (p q : Passing) :
    Term.combine? f (c.term p) (d.term q) =
      some (.column <$> c.combine (Nullable.zipWithM f) d.broadcast) := rfl

end Routes

theorem run?_binary {t : ElementType} {op : BinaryOperator}
    {f : t.Value → t.Value → Except Fault t.Value} (known : t.binary? op = some f)
    (l r : Term t.Value) :
    Operation.run? (.binary op l r) = (Term.combine? f l r).map (Answer.elements <$> ·) := by
  rw [Operation.run?, known, Option.map_eq_bind]
  rfl

section Methods

variable {t : ElementType}

theorem onColumn?_filled (m : Method) (c : Column t.Value) (v : Nullable t.Value) :
    m.onColumn? c (Column.filled v c.length).broadcast = m.onColumn? c v.broadcast := by
  cases m <;> simp only [Method.onColumn?, Column.meet_filled]

theorem log_of_onColumn? {m : Method} {c : Column t.Value} {b : Broadcast t.Value}
    {x : Outcome Fault (Answer t)} (h : m.onColumn? c b = some x) : x.log = c.paddingLog b := by
  cases m with
  | equal | notEqual =>
    cases h
    exact Outcome.log_map _ _
  | compare o =>
    obtain ⟨p, _, rfl⟩ := Option.map_eq_some_iff.mp h
    exact Outcome.log_map _ _
  | connect o =>
    obtain ⟨p, _, rfl⟩ := Option.map_eq_some_iff.mp h
    exact Outcome.log_map _ _
  | checked op =>
    obtain ⟨g, _, rfl⟩ := Option.map_eq_some_iff.mp h
    exact Outcome.log_map _ _

theorem run?_method_single {s : Term t.Value} {v : Nullable t.Value} (single : s.slot? = some v)
    (m : Method) (c : Column t.Value) (p : Passing) :
    Operation.run? (.method m (c.term p) s) = m.onColumn? c v.broadcast := by
  rw [← Term.broadcast_of_slot? single]
  rfl

theorem run?_method_copies (m : Method) (c : Column t.Value) (v : Nullable t.Value) (p q : Passing) :
    Operation.run? (.method m (c.term p) ((Column.filled v c.length).term q)) =
      m.onColumn? c v.broadcast :=
  onColumn?_filled m c v

end Methods

/-- Opposite to a column, on either side of an operator and to the right of a method, a single slot
acts as the column of its copies: the result, or the first fault, is the same, and nothing is
recorded. Whether columns are given away or lent makes no difference. A method that the type does not
have runs on neither. -/
theorem run?_filled {t : ElementType} {s : Term t.Value} {v : Nullable t.Value}
    (single : s.slot? = some v) (c : Column t.Value) :
    (∀ op f, t.binary? op = some f → ∃ x y : Outcome Fault (Answer t), x.log = [] ∧ y.log = [] ∧
      ∀ p q,
        Operation.run? (.binary op (c.term p) s) = some x ∧
        Operation.run? (.binary op (c.term p) ((Column.filled v c.length).term q)) = some x ∧
        Operation.run? (.binary op s (c.term p)) = some y ∧
        Operation.run? (.binary op ((Column.filled v c.length).term q) (c.term p)) = some y) ∧
    (∀ m : Method,
      (m.SuitedTo t → ∃ x : Outcome Fault (Answer t), x.log = [] ∧ ∀ p q,
        Operation.run? (.method m (c.term p) s) = some x ∧
        Operation.run? (.method m (c.term p) ((Column.filled v c.length).term q)) = some x) ∧
      (¬m.SuitedTo t → ∀ p q,
        Operation.run? (t := t) (.method m (c.term p) s) = none ∧
        Operation.run? (t := t)
          (.method m (c.term p) ((Column.filled v c.length).term q)) = none)) := by
  constructor
  · intro op f known
    refine ⟨.elements <$> Computed.column <$> c.combine (Nullable.zipWithM f) v.broadcast,
      .elements <$> Computed.column <$> .ofExcept (c.mapM (v.zipWithM f)), ?_, ?_, ?_⟩
    · simp [Column.combine]
    · simp [Outcome.ofExcept]
    · intro p q
      simp only [run?_binary known, combine?_column_left single, combine?_column_right single,
        combine?_columns, Column.combine_filled, Column.filled_combine]
      exact ⟨rfl, rfl, rfl, rfl⟩
  · intro m
    have hsuited : (m.onColumn? c v.broadcast).isSome ↔ m.SuitedTo t := Method.onColumn?_isSome_iff
    constructor
    · intro hm
      obtain ⟨x, hx⟩ := Option.isSome_iff_exists.mp (hsuited.mpr hm)
      refine ⟨x, log_of_onColumn? hx, fun p q => ?_⟩
      exact ⟨(run?_method_single single m c p).trans hx, (run?_method_copies m c v p q).trans hx⟩
    · intro hm p q
      have hnone : m.onColumn? c v.broadcast = none := by
        rwa [← Option.not_isSome_iff_eq_none, hsuited]
      exact ⟨(run?_method_single single m c p).trans hnone,
        (run?_method_copies m c v p q).trans hnone⟩

/-- The slot of a handle meets a column on its right, and the last position overflows. -/
theorem run?_filled_handle :
    let c : Column (FixedInt .i32) := ⟨[.value (.wrap _ 7), .null, .value (.wrap _ (-2147483648))]⟩
    let h : Handle (FixedInt .i32) := ⟨c, some 0⟩
    let s : Term (FixedInt .i32) := .operand (.handle h .lent)
    s.slot? = some (.value (.wrap _ 7)) ∧
      ∃ y, y.result = .error .subOverflow ∧ ∀ p q,
        Operation.run? (t := .int .i32) (.binary .sub s (c.term p)) = some y ∧
        Operation.run? (t := .int .i32)
          (.binary .sub ((Column.filled (.value (.wrap _ 7)) 3).term q) (c.term p)) = some y := by
  intro c h s
  have single : s.slot? = some (.value (.wrap _ 7)) := rfl
  obtain ⟨_, y, _, _, hy⟩ := (run?_filled (t := .int .i32) single c).1 .sub _ rfl
  have he : Operation.run? (t := .int .i32) (.binary .sub s (c.term .lent)) =
      some (.error .subOverflow) := rfl
  cases he.symm.trans (hy .lent .lent).2.2.1
  exact ⟨single, _, rfl, fun p q => (hy p q).2.2⟩

end ColumnAlgebra
