import ColumnAlgebra.Proofs.Spread

/-!
# Expressions, as a whole and position by position

An expression applies the operators of an element type to columns, nullables and handles; a bare value
or the null literal may stand on one side of an operator. It is evaluated as a whole, node by node
with the shapes at hand, or at one position, where every column is replaced by its slot there. Main
statement: the two agree, so an expression over columns is the expression over slots at every position
up to the longest column, and it has a fault exactly if some position has one.
-/

namespace ColumnAlgebra
set_option autoImplicit false

/-- An operator occurs with the function that the element type has for it. -/
inductive Expression (t : ElementType) where
  | leaf (o : Operand t.Value)
  | unary (op : UnaryOperator) (f : t.Value → Except Fault t.Value) (known : t.unary? op = some f)
      (x : Expression t)
  | binary (op : BinaryOperator) (f : t.Value → t.Value → Except Fault t.Value)
      (known : t.binary? op = some f) (l r : Expression t)
  | literalRight (op : BinaryOperator) (f : t.Value → t.Value → Except Fault t.Value)
      (known : t.binary? op = some f) (l : Expression t) (r : Literal t.Value)
  | literalLeft (op : BinaryOperator) (f : t.Value → t.Value → Except Fault t.Value)
      (known : t.binary? op = some f) (l : Literal t.Value) (r : Expression t)

variable {α : Type}

namespace Operand

def computed : Operand α → Computed α
  | nullable s => .nullable s
  | handle h _ => .nullable h.get
  | column c _ => .column c

/-- The operand with its slot at a position in place of a column. -/
def focus (i : Nat) : Operand α → Operand α
  | column c _ => nullable (c.slot i)
  | o => o

def columnLength? : Operand α → Option Nat
  | column c _ => some c.length
  | _ => none

end Operand

def Computed.operand : Computed α → Operand α
  | nullable s => .nullable s
  | column c => .column c .given

theorem Computed.computed_operand (x : Computed α) : x.operand.computed = x := by
  cases x <;> rfl

namespace Expression

variable {t : ElementType}

def operand : Expression t → Outcome Fault (Operand t.Value)
  | leaf o => pure o
  | unary _ f _ x => do
    let x ← x.operand
    .ofExcept (Computed.operand <$> x.apply f)
  | binary _ f _ l r => do
    let l ← l.operand
    let r ← r.operand
    Computed.operand <$> l.combine f r
  | literalRight _ f _ l r => do
    let l ← l.operand
    Computed.operand <$> l.combineLiteral f r
  | literalLeft _ f _ l r => do
    let r ← r.operand
    Computed.operand <$> l.combine f r

def evaluate (e : Expression t) : Outcome Fault (Computed t.Value) := Operand.computed <$> e.operand

/-- The expression with every column replaced by its slot at a position. -/
def focus (i : Nat) : Expression t → Expression t
  | leaf o => leaf (o.focus i)
  | unary op f known x => unary op f known (x.focus i)
  | binary op f known l r => binary op f known (l.focus i) (r.focus i)
  | literalRight op f known l r => literalRight op f known (l.focus i) r
  | literalLeft op f known l r => literalLeft op f known l (r.focus i)

def columnLengths : Expression t → List Nat
  | leaf o => o.columnLength?.toList
  | unary _ _ _ x => x.columnLengths
  | binary _ _ _ l r => l.columnLengths ++ r.columnLengths
  | literalRight _ _ _ l _ => l.columnLengths
  | literalLeft _ _ _ _ r => r.columnLengths

end Expression

/-- An evaluation as a whole against the evaluations at every position: it gives an operand that is
seen at a position as what is computed there, or it has the fault of some position. -/
inductive Pointwise (length? : Option Nat) (single : Nat → Except Fault (Operand α)) :
    Except Fault (Operand α) → Prop where
  | ok (o : Operand α) (length : o.columnLength? = length?) (slots : ∀ i, single i = .ok (o.focus i)) :
      Pointwise length? single (.ok o)
  | error (e : Fault) (i : Nat) (fault : single i = .error e) : Pointwise length? single (.error e)

namespace Pointwise

variable {length? length?' : Option Nat} {single : Nat → Except Fault (Operand α)}
  {x : Except Fault (Operand α)}

theorem bind (hx : Pointwise length? single x) {g : Operand α → Except Fault (Operand α)}
    {h : Nat → Operand α → Except Fault (Operand α)}
    (hg : ∀ o, o.columnLength? = length? → Pointwise length?' (fun i => h i (o.focus i)) (g o)) :
    Pointwise length?' (fun i => single i >>= h i) (x >>= g) := by
  cases hx with
  | ok o length slots =>
    have hs : (fun i => single i >>= h i) = fun i => h i (o.focus i) := by
      funext i
      rw [slots i]
      rfl
    rw [hs]
    exact hg o length
  | error e i fault => exact .error e i (by rw [fault]; rfl)

theorem const (s : Except Fault (Nullable α)) :
    Pointwise none (fun _ => Operand.nullable <$> s) (Operand.nullable <$> s) := by
  cases s with
  | ok s => exact .ok _ rfl fun _ => rfl
  | error e => exact .error e 0 rfl

/-- A column that is filled position by position, with empty slots past its end. -/
theorem tabulate {n : Nat} {f : Nat → Except Fault (Nullable α)} (past : ∀ i, n ≤ i → f i = .ok .null) :
    Pointwise (some n) (fun i => Operand.nullable <$> f i)
      ((Operand.column · .given) <$> Column.tabulate n f) := by
  rcases Column.tabulate_cases n f with ⟨c, hc, hl, hf⟩ | ⟨e, he, i, _, hi, _⟩
  · rw [hc]
    refine .ok _ (congrArg some hl) fun i => ?_
    by_cases hin : i < n
    · rw [hf i hin]
      rfl
    · have hs : c.slot i = .null := Column.slot_of_length_le (by omega)
      rw [past i (by omega)]
      exact congrArg (fun s => Except.ok (Operand.nullable s)) hs.symm
  · rw [he]
    exact .error e i (by rw [hi]; rfl)

end Pointwise

namespace Operand

variable {f : α → α → Except Fault α}

theorem result_combine_nullable (s t : Nullable α) :
    (Computed.operand <$> (nullable s).combine f (.nullable t)).result =
      nullable <$> s.zipWithM f t := by
  simp only [combine, Nullable.combine, Outcome.result_map, Outcome.result_ofExcept]
  cases s.zipWithM f t <;> rfl

theorem result_combine_column_right (s : Nullable α) (d : Column α) (p : Passing) :
    (Computed.operand <$> (nullable s).combine f (column d p)).result =
      (column · .given) <$> Column.tabulate d.length fun i => s.zipWithM f (d.slot i) := by
  simp only [combine, Nullable.combine, Outcome.result_map, Outcome.result_ofExcept,
    Column.mapM_eq_tabulate]
  cases Column.tabulate d.length fun i => s.zipWithM f (d.slot i) <;> rfl

theorem result_combine_column_left (c : Column α) (p : Passing) (r : Operand α) :
    (Computed.operand <$> (column c p).combine f r).result =
      (column · .given) <$> Column.tabulate (c.zipLength r.broadcast) fun i =>
        (c.slot i).zipWithM f (r.broadcast.slot i) := by
  simp only [combine, Column.combine, Outcome.result_map, Column.zipWithM_eq_tabulate]
  cases Column.tabulate (c.zipLength r.broadcast) fun i =>
    (c.slot i).zipWithM f (r.broadcast.slot i) <;> rfl

theorem combine_focus_right (s : Nullable α) (r : Operand α) (i : Nat) :
    (nullable s).combine f (r.focus i) = (nullable s).combine f (.nullable (r.broadcast.slot i)) := by
  cases r <;> rfl

theorem length_combine_column (c : Column α) (r : Operand α) :
    Option.merge max (some c.length) r.columnLength? = some (c.zipLength r.broadcast) := by
  cases r <;> rfl

theorem pointwise_combine (l r : Operand α) :
    Pointwise (Option.merge max l.columnLength? r.columnLength?)
      (fun i => (Computed.operand <$> (l.focus i).combine f (r.focus i)).result)
      (Computed.operand <$> l.combine f r).result := by
  have single (s : Nullable α) : Pointwise (Option.merge max none r.columnLength?)
      (fun i => (Computed.operand <$> (nullable s).combine f (r.focus i)).result)
      (Computed.operand <$> (nullable s).combine f r).result := by
    simp only [combine_focus_right, result_combine_nullable]
    cases r with
    | nullable t =>
      rw [result_combine_nullable]
      exact .const (s.zipWithM f t)
    | handle h p =>
      change Pointwise _ _ (Computed.operand <$> (nullable s).combine f (nullable h.get)).result
      rw [result_combine_nullable]
      exact .const (s.zipWithM f h.get)
    | column d p =>
      rw [result_combine_column_right]
      refine .tabulate (f := fun i => s.zipWithM f (d.slot i)) fun i hi => ?_
      rw [Column.slot_of_length_le hi]
      exact Nullable.zipWithM_null_right f s
  cases l with
  | nullable s => exact single s
  | handle h p => exact single h.get
  | column c p =>
    have hc (i : Nat) : (column c p).focus i = nullable (c.slot i) := rfl
    have hl : (column c p).columnLength? = some c.length := rfl
    simp only [hc, hl, combine_focus_right, result_combine_nullable, result_combine_column_left,
      length_combine_column]
    refine .tabulate fun i hi => ?_
    rw [Column.slot_of_length_le (Nat.le_trans (c.length_le_zipLength _) hi)]
    rfl

theorem pointwise_apply {f : α → Except Fault α} (x : Operand α) :
    Pointwise x.columnLength?
      (fun i => (Outcome.ofExcept (Computed.operand <$> (x.focus i).apply f)).result)
      (Outcome.ofExcept (Computed.operand <$> x.apply f)).result := by
  simp only [Outcome.result_ofExcept]
  cases x with
  | nullable s =>
    simp only [focus, apply, Functor.map_map]
    exact .const _
  | handle h p =>
    simp only [focus, apply, Functor.map_map]
    exact .const _
  | column c p =>
    simp only [focus, apply, Functor.map_map, Column.mapM_eq_tabulate]
    refine .tabulate fun i hi => ?_
    rw [Column.slot_of_length_le hi]
    rfl

end Operand

namespace Expression

variable {t : ElementType}

theorem evaluate_leaf_pair {op : BinaryOperator} {f : t.Value → t.Value → Except Fault t.Value}
    (known : t.binary? op = some f) (l r : Operand t.Value) :
    (binary op f known (leaf l) (leaf r)).evaluate = l.combine f r := by
  simp only [evaluate, operand, pure_bind, Functor.map_map, Computed.computed_operand, id_map']

theorem evaluate_literalRight_leaf {op : BinaryOperator}
    {f : t.Value → t.Value → Except Fault t.Value} (known : t.binary? op = some f)
    (l : Operand t.Value) (r : Literal t.Value) :
    (literalRight op f known (leaf l) r).evaluate = l.combineLiteral f r := by
  simp only [evaluate, operand, pure_bind, Functor.map_map, Computed.computed_operand, id_map']

theorem evaluate_literalLeft_leaf {op : BinaryOperator}
    {f : t.Value → t.Value → Except Fault t.Value} (known : t.binary? op = some f)
    (l : Literal t.Value) (r : Operand t.Value) :
    (literalLeft op f known l (leaf r)).evaluate = l.combine f r := by
  simp only [evaluate, operand, pure_bind, Functor.map_map, Computed.computed_operand, id_map']

theorem evaluate_unary_leaf {op : UnaryOperator} {f : t.Value → Except Fault t.Value}
    (known : t.unary? op = some f) (x : Operand t.Value) :
    (unary op f known (leaf x)).evaluate = .ofExcept (x.apply f) := by
  simp only [evaluate, operand, pure_bind, Outcome.ofExcept_map, Functor.map_map,
    Computed.computed_operand, id_map']

/-- One operator on operands and literals is the operation of that name. -/
theorem run?_eq_evaluate {op : BinaryOperator} {f : t.Value → t.Value → Except Fault t.Value}
    (known : t.binary? op = some f) (l r : Operand t.Value) (k : Literal t.Value) :
    Operation.run? (.binary op (.operand l) (.operand r)) =
      some (.elements <$> (binary op f known (leaf l) (leaf r)).evaluate) ∧
    Operation.run? (.binary op (.operand l) (.literal k)) =
      some (.elements <$> (literalRight op f known (leaf l) k).evaluate) ∧
    Operation.run? (.binary op (.literal k) (.operand r)) =
      some (.elements <$> (literalLeft op f known k (leaf r)).evaluate) := by
  rw [evaluate_leaf_pair, evaluate_literalRight_leaf, evaluate_literalLeft_leaf, run?_binary known,
    run?_binary known, run?_binary known]
  exact ⟨rfl, rfl, rfl⟩

theorem run?_unary_eq_evaluate {op : UnaryOperator} {f : t.Value → Except Fault t.Value}
    (known : t.unary? op = some f) (x : Operand t.Value) :
    Operation.run? (.unary op (.operand x)) =
      some (.elements <$> (unary op f known (leaf x)).evaluate) := by
  rw [evaluate_unary_leaf, ← Outcome.ofExcept_map, Operation.run?, known]
  rfl

theorem max?_append (ms ns : List Nat) : (ms ++ ns).max? = Option.merge max ms.max? ns.max? := by
  induction ms with
  | nil => simp
  | cons m ms ih =>
    rw [List.cons_append, List.max?_cons, List.max?_cons, ih]
    cases ms.max? <;> cases ns.max? <;> simp [Nat.max_assoc]

theorem max?_columnLength (o : Operand t.Value) : o.columnLength?.toList.max? = o.columnLength? := by
  cases o.columnLength? <;> rfl

theorem pointwise_operand (e : Expression t) :
    Pointwise e.columnLengths.max? (fun i => (e.focus i).operand.result) e.operand.result := by
  induction e with
  | leaf o => exact .ok o (max?_columnLength o).symm fun _ => rfl
  | unary op f known x ih =>
    simp only [operand, focus, Outcome.result_bind]
    refine ih.bind fun x hx => ?_
    rw [columnLengths, ← hx]
    exact x.pointwise_apply
  | binary op f known l r ihl ihr =>
    simp only [operand, focus, Outcome.result_bind]
    refine ihl.bind fun l hl => ihr.bind fun r hr => ?_
    rw [columnLengths, max?_append, ← hl, ← hr]
    exact l.pointwise_combine r
  | literalRight op f known l r ih =>
    simp only [operand, focus, Outcome.result_bind, Operand.combineLiteral_eq_combine]
    refine ih.bind fun l hl => ?_
    rw [columnLengths, ← hl]
    have h := l.pointwise_combine (f := f) (.nullable r.slot)
    simpa [Operand.columnLength?, Operand.focus] using h
  | literalLeft op f known l r ih =>
    simp only [operand, focus, Outcome.result_bind, Literal.combine_eq_combine]
    refine ih.bind fun r hr => ?_
    rw [columnLengths, ← hr]
    have h := Operand.pointwise_combine (f := f) (.nullable l.slot) r
    simpa [Operand.columnLength?, Operand.focus] using h

/-- An expression without a fault anywhere is a column as long as its longest column, or a slot if it
has none, and at every position, also past the end, it is the expression on the slots there. A fault
is the fault at some position. -/
theorem evaluate_pointwise (e : Expression t) :
    ((∃ r, e.evaluate.result = .ok r) ↔ ∀ i, ∃ r, (e.focus i).evaluate.result = .ok r) ∧
    (∀ fault, e.evaluate.result = .error fault →
      ∃ i, (e.focus i).evaluate.result = .error fault) ∧
    (∀ r, e.evaluate.result = .ok r →
      (e.columnLengths ≠ [] → ∃ c, r = .column c ∧ e.columnLengths.max? = some c.length ∧
        ∀ i, (e.focus i).evaluate.result = .ok (.nullable (c.slot i))) ∧
      (e.columnLengths = [] → ∃ s, r = .nullable s ∧
        ∀ i, (e.focus i).evaluate.result = .ok (.nullable s))) := by
  have h := e.pointwise_operand
  simp only [evaluate, Outcome.result_map]
  generalize e.operand.result = whole at h
  cases h with
  | ok o length slots =>
    have hs (i : Nat) : Operand.computed <$> (e.focus i).operand.result =
        .ok (o.focus i).computed := by
      rw [slots i]
      rfl
    refine ⟨⟨fun _ i => ⟨_, hs i⟩, fun _ => ⟨_, rfl⟩⟩, ?_, ?_⟩
    · intro fault hfault
      cases hfault
    · intro r hr
      cases hr
      have hempty : o.columnLength? = none ↔ e.columnLengths = [] := by
        rw [length, List.max?_eq_none_iff]
      cases o with
      | nullable s => exact ⟨fun hne => absurd (hempty.mp rfl) hne, fun _ => ⟨s, rfl, hs⟩⟩
      | handle h p => exact ⟨fun hne => absurd (hempty.mp rfl) hne, fun _ => ⟨h.get, rfl, hs⟩⟩
      | column c p =>
        refine ⟨fun _ => ⟨c, rfl, length.symm, hs⟩, fun hnil => ?_⟩
        cases hempty.mpr hnil
  | error fault i hi =>
    have hs : Operand.computed <$> (e.focus i).operand.result = .error fault := by
      rw [hi]
      rfl
    refine ⟨⟨?_, ?_⟩, ?_, ?_⟩
    · rintro ⟨r, hr⟩
      cases hr
    · intro all
      obtain ⟨r, hr⟩ := all i
      cases hs.symm.trans hr
    · intro fault' hfault
      cases hfault
      exact ⟨i, hs⟩
    · intro r hr
      cases hr

theorem evaluate_pointwise_padded :
    let a : Column (FixedInt .i32) := ⟨[.value (.wrap .i32 3), .null, .value (.wrap .i32 5)]⟩
    let b : Column (FixedInt .i32) := .ofValues [.wrap .i32 10, .wrap .i32 20]
    let sum : Expression (.int .i32) :=
      .binary .add _ rfl (.leaf (.column a .lent)) (.leaf (.column b .given))
    let e : Expression (.int .i32) := .literalRight .sub _ rfl
      (.binary .mul _ rfl sum (.leaf (.handle ⟨a, some 0⟩ .lent))) (.scalar (.wrap .i32 1))
    ∃ c, e.evaluate.result = .ok (.column c) ∧ c.slots = [.value (.wrap .i32 38), .null, .null] ∧
      e.columnLengths.max? = some c.length ∧
      ∀ i, (e.focus i).evaluate.result = .ok (.nullable (c.slot i)) := by
  intro a b sum e
  have hr : e.evaluate.result = .ok (.column ⟨[.value (.wrap .i32 38), .null, .null]⟩) := rfl
  obtain ⟨c, hc, length, slots⟩ := (e.evaluate_pointwise.2.2 _ hr).1 (by simp [e, sum, columnLengths,
    Operand.columnLength?])
  cases hc
  exact ⟨_, hr, rfl, length, slots⟩

end Expression
end ColumnAlgebra
