import ColumnAlgebra.Proofs.Expression
import ColumnAlgebra.Proofs.Masking

/-!
# Expressions over columns

A node of an expression over columns is an operator between the columns that its operands give. Main
statements: which column a node gives and when it has a fault, for every shape of node, with the faults
of the operands before its own.
-/

namespace ColumnAlgebra
set_option autoImplicit false

variable {α β ε : Type}

theorem Computed.map_computed_operand (x : Except ε (Computed α)) :
    Operand.computed <$> Computed.operand <$> x = x := by
  simp only [Functor.map_map, computed_operand, id_map']

theorem Operand.combine_computed (f : α → α → Except Fault α) (l r : Operand α) :
    l.computed.operand.combine f r.computed.operand = l.combine f r := by
  cases l <;> cases r <;> rfl

theorem Operand.apply_computed (g : α → Except Fault β) (x : Operand α) :
    x.computed.operand.apply g = x.apply g := by
  cases x <;> rfl

namespace Expression

variable {t : ElementType}

def column (c : Column t.Value) (p : Passing) : Expression t := leaf (.column c p)

/-- The outcome is that of filling a column. -/
def Runs (e : Expression t) (z : Except Fault (Column t.Value)) : Prop :=
  e.evaluate.result = .column <$> z

/-- The expression has no fault, and the column is what it gives. -/
def Gives (e : Expression t) (c : Column t.Value) : Prop := e.evaluate.result = .ok (.column c)

def Fails (e : Expression t) : Prop := ∃ fault, e.evaluate.result = .error fault

variable {e l r : Expression t} {a b c : Column t.Value} {z : Except Fault (Column t.Value)}

theorem gives_column (c : Column t.Value) (p : Passing) : (column c p).Gives c := rfl

theorem Gives.congr (h : e.Gives a) (hab : a = b) : e.Gives b := by
  rwa [hab] at h

theorem Runs.congr {z' : Except Fault (Column t.Value)} (h : e.Runs z) (hz : z = z') : e.Runs z' := by
  rwa [hz] at h

theorem Runs.gives_iff (h : e.Runs z) : e.Gives c ↔ z = .ok c := by
  rw [Gives, h]
  cases z with
  | error fault => exact ⟨nofun, nofun⟩
  | ok d =>
    change Except.ok (Computed.column d) = _ ↔ _
    rw [Except.ok.injEq, Computed.column.injEq, Except.ok.injEq]

theorem Runs.error_iff (h : e.Runs z) {fault : Fault} :
    e.evaluate.result = .error fault ↔ z = .error fault := by
  rw [h]
  cases z with
  | error fault' =>
    change Except.error fault' = _ ↔ _
    rw [Except.error.injEq, Except.error.injEq]
  | ok d => exact ⟨nofun, nofun⟩

theorem Runs.fails_iff (h : e.Runs z) : e.Fails ↔ ∃ fault, z = .error fault :=
  exists_congr fun _ => h.error_iff

theorem Runs.exists_gives (h : e.Runs z) (hf : ¬e.Fails) : ∃ c, e.Gives c ∧ z = .ok c := by
  cases hz : z with
  | error fault => exact absurd (h.fails_iff.mpr ⟨fault, hz⟩) hf
  | ok c => exact ⟨c, h.gives_iff.mpr hz, rfl⟩

section Nodes

variable {op : BinaryOperator} {f : t.Value → t.Value → Except Fault t.Value}
  {known : t.binary? op = some f}

/-- The operands are evaluated first, the left one before the right one. -/
theorem result_binary (l r : Expression t) : (binary op f known l r).evaluate.result =
    l.evaluate.result >>= fun x => r.evaluate.result >>= fun y =>
      (x.operand.combine f y.operand).result := by
  simp only [evaluate, operand, Outcome.result_map, Outcome.result_bind]
  cases l.operand.result with
  | error fault => rfl
  | ok x =>
    cases r.operand.result with
    | error fault => rfl
    | ok y =>
      refine (Computed.map_computed_operand (x.combine f y).result).trans ?_
      rw [← Operand.combine_computed]
      rfl

theorem result_literalLeft (x : Literal t.Value) (r : Expression t) :
    (literalLeft op f known x r).evaluate.result =
      r.evaluate.result >>= fun y => (Operand.combine f (.nullable x.slot) y.operand).result := by
  simp only [evaluate, operand, Outcome.result_map, Outcome.result_bind, Literal.combine_eq_combine]
  cases r.operand.result with
  | error fault => rfl
  | ok y =>
    refine (Computed.map_computed_operand (Operand.combine f (.nullable x.slot) y).result).trans ?_
    rw [← Operand.combine_computed]
    rfl

theorem result_literalRight (l : Expression t) (y : Literal t.Value) :
    (literalRight op f known l y).evaluate.result =
      l.evaluate.result >>= fun x => (x.operand.combine f (.nullable y.slot)).result := by
  simp only [evaluate, operand, Outcome.result_map, Outcome.result_bind,
    Operand.combineLiteral_eq_combine]
  cases l.operand.result with
  | error fault => rfl
  | ok x =>
    refine (Computed.map_computed_operand (x.combine f (.nullable y.slot)).result).trans ?_
    rw [← Operand.combine_computed]
    rfl

theorem result_unary {op : UnaryOperator} {g : t.Value → Except Fault t.Value}
    {known : t.unary? op = some g} (e : Expression t) :
    (unary op g known e).evaluate.result = e.evaluate.result >>= fun x => x.operand.apply g := by
  simp only [evaluate, operand, Outcome.result_map, Outcome.result_bind, Outcome.result_ofExcept]
  cases e.operand.result with
  | error fault => rfl
  | ok x =>
    refine (Computed.map_computed_operand (x.apply g)).trans ?_
    rw [← Operand.apply_computed]
    rfl

theorem runs_binary (hl : l.Gives a) (hr : r.Gives b) :
    (binary op f known l r).Runs (a.zipWithM (Nullable.zipWithM f) b.broadcast) := by
  rw [Runs, result_binary, hl, hr]
  exact Outcome.result_map _ _

theorem runs_unary {op : UnaryOperator} {g : t.Value → Except Fault t.Value}
    {known : t.unary? op = some g} (he : e.Gives a) :
    (unary op g known e).Runs (a.mapM (Nullable.mapM g)) := by
  rw [Runs, result_unary, he]
  rfl

theorem gives_binary_iff {w : Except Fault (Column t.Value)} (hl : l.Runs z) (hr : r.Runs w) :
    (binary op f known l r).Gives c ↔
      ∃ a b, z = .ok a ∧ w = .ok b ∧ a.zipWithM (Nullable.zipWithM f) b.broadcast = .ok c := by
  cases z with
  | error fault =>
    rw [Gives, result_binary, hl]
    exact ⟨nofun, nofun⟩
  | ok a =>
    cases w with
    | error fault =>
      rw [Gives, result_binary, hl, hr]
      exact ⟨nofun, nofun⟩
    | ok b =>
      rw [(runs_binary hl hr).gives_iff]
      constructor
      · intro h
        exact ⟨a, b, rfl, rfl, h⟩
      · rintro ⟨_, _, ⟨⟩, ⟨⟩, h⟩
        exact h

/-- Without faults on values there are none on columns. -/
theorem gives_binary (known : t.binary? op = some f) {u : t.Value → t.Value → t.Value}
    (h : ∀ x y, f x y = .ok (u x y)) (hl : l.Gives a) (hr : r.Gives b) :
    (binary op f known l r).Gives (a.propagate u b) :=
  (runs_binary hl hr).gives_iff.mpr (Column.zipWithM_ok h a b)

theorem runs_scalarLeft (x : t.Value) (hr : r.Gives b) :
    (literalLeft op f known (.scalar x) r).Runs (b.mapM (Nullable.mapM (f x))) := by
  rw [Runs, result_literalLeft, hr, ← Nullable.value_zipWithM]
  rfl

theorem runs_scalarRight (hl : l.Gives a) (y : t.Value) :
    (literalRight op f known l (.scalar y)).Runs (a.mapM (Nullable.mapM fun x => f x y)) := by
  rw [Runs, result_literalRight, hl, ← Column.zipWithM_value]
  exact Outcome.result_map _ _

end Nodes

section Integers

variable {k : IntKind}

theorem binary?_int (k : IntKind) (op : BinaryOperator) :
    (ElementType.int k).binary? op = some (FixedInt.binary op) := rfl

/-- An operator between two expressions over integers. -/
def operate (op : BinaryOperator) (l r : Expression (.int k)) : Expression (.int k) :=
  binary op (FixedInt.binary op) (binary?_int k op) l r

variable {op : BinaryOperator} {l r : Expression (.int k)} {a b : Column (FixedInt k)}

theorem runs_operate (op : BinaryOperator) (hl : l.Gives a) (hr : r.Gives b) :
    (operate op l r).Runs (a.zipWithM (Nullable.zipWithM (FixedInt.binary op)) b.broadcast) :=
  runs_binary hl hr

theorem exists_gives_operate (hl : l.Gives a) (hr : r.Gives b) (h : ¬(operate op l r).Fails) :
    ∃ c : Column (FixedInt k), (operate op l r).Gives c ∧
      a.zipWithM (Nullable.zipWithM (FixedInt.binary op)) b.broadcast = .ok c :=
  (runs_operate op hl hr).exists_gives h

theorem fails_operate_iff (hl : l.Gives a) (hr : r.Gives b) : (operate op l r).Fails ↔
    ∃ i x y, a.slot i = .value x ∧ b.slot i = .value y ∧ ∃ fault, FixedInt.binary op x y = .error fault :=
  (runs_operate op hl hr).fails_iff.trans Column.exists_zipWithM_eq_error_iff

end Integers

end Expression
end ColumnAlgebra
