import ColumnAlgebra.Proofs.Padding

/-!
# Functions that propagate emptiness

A function of two values acts on two slots, where an empty one on either side empties the result, and on
two columns position by position. The slot of the result is that of the operands at every position, also
past their ends. Main statements: so a law of the function is a law on slots, and from there a law of
columns of any lengths, at whatever nodes the shorter ones are padded.
-/

namespace ColumnAlgebra
set_option autoImplicit false

variable {α β γ δ ε : Type}

namespace Nullable

variable {s : Nullable α} {r : Nullable β}

theorem map_eq_null_iff {f : α → γ} : s.map f = .null ↔ s = .null := by
  cases s <;> simp

theorem zipWith_eq_null_iff {f : α → β → γ} : s.zipWith f r = .null ↔ s = .null ∨ r = .null := by
  cases s <;> cases r <;> simp

theorem zipWith_eq_value_iff {f : α → β → γ} {c : γ} :
    s.zipWith f r = .value c ↔ ∃ a b, s = .value a ∧ r = .value b ∧ f a b = c := by
  cases s <;> cases r <;> simp

theorem zipWith_comm {f : α → β → γ} {g : β → α → γ} (h : ∀ a b, f a b = g b a) (s : Nullable α)
    (r : Nullable β) : s.zipWith f r = r.zipWith g s := by
  cases s <;> cases r <;> simp [h]

theorem map_map (f : α → β) (g : β → γ) (s : Nullable α) : (s.map f).map g = s.map fun a => g (f a) := by
  cases s <;> rfl

theorem zipWith_map {σ : Type} (f : γ → δ → σ) (g : α → γ) (h : β → δ) (s : Nullable α) (r : Nullable β) :
    (s.map g).zipWith f (r.map h) = s.zipWith (fun a b => f (g a) (h b)) r := by
  cases s <;> cases r <;> rfl

theorem map_zipWith (u : γ → δ) (f : α → β → γ) (s : Nullable α) (r : Nullable β) :
    (s.zipWith f r).map u = s.zipWith (fun a b => u (f a b)) r := by
  cases s <;> cases r <;> rfl

theorem zipWithM_ok (f : α → β → γ) (s : Nullable α) (r : Nullable β) :
    s.zipWithM (fun a b => (.ok (f a b) : Except ε γ)) r = .ok (s.zipWith f r) := by
  cases s <;> cases r <;> rfl

section Laws

variable {f g : α → α → α}

theorem zipWith_assoc (h : ∀ a b c, f (f a b) c = f a (f b c)) (s r u : Nullable α) :
    (s.zipWith f r).zipWith f u = s.zipWith f (r.zipWith f u) := by
  cases s <;> cases r <;> cases u <;> simp [h]

theorem zipWith_self (h : ∀ a, f a a = a) (s : Nullable α) : s.zipWith f s = s := by
  cases s <;> simp [h]

theorem zipWith_distrib (h : ∀ a b c, f a (g b c) = g (f a b) (f a c)) (s r u : Nullable α) :
    s.zipWith f (r.zipWith g u) = (s.zipWith f r).zipWith g (s.zipWith f u) := by
  cases s <;> cases r <;> cases u <;> simp [h]

/-- Absorption asks for the other slot to be there. -/
theorem zipWith_absorb (h : ∀ a b, f a (g a b) = a) (s : Nullable α) {r : Nullable α}
    (present : r ≠ .null) : s.zipWith f (s.zipWith g r) = s := by
  cases r with
  | null => exact absurd rfl present
  | value b => cases s <;> simp [h]

end Laws

end Nullable

namespace Column

/-- The values of two columns joined by `f` where both have one, up to the longer length. -/
def propagate (f : α → β → γ) (a : Column α) (b : Column β) : Column γ :=
  a.zipWith (Nullable.zipWith f) b.broadcast

@[simp] theorem length_propagate (f : α → β → γ) (a : Column α) (b : Column β) :
    (a.propagate f b).length = max a.length b.length := length_zipWith _ _ _

@[simp] theorem slot_propagate (f : α → β → γ) (a : Column α) (b : Column β) (i : Nat) :
    (a.propagate f b).slot i = (a.slot i).zipWith f (b.slot i) :=
  slot_zipWith_of_null rfl a b i

/-- A function that leaves the empty slot empty is seen at every position of the mapped column. -/
theorem slot_map_of_null {f : Nullable α → Nullable β} (h : f .null = .null) (c : Column α) (i : Nat) :
    (c.map f).slot i = f (c.slot i) := by
  by_cases hi : i < c.length
  · exact slot_map hi
  · have hl : c.length ≤ i := Nat.le_of_not_lt hi
    rw [slot_of_length_le hl, slot_of_length_le (by rwa [length_map]), h]

@[simp] theorem slot_map_map (f : α → β) (c : Column α) (i : Nat) :
    (c.map (Nullable.map f)).slot i = (c.slot i).map f := slot_map_of_null rfl c i

/-- A function without faults. -/
theorem combine_zipWithM_ok (f : α → β → γ) (a : Column α) (b : Column β) :
    a.combine (Nullable.zipWithM fun x y => (.ok (f x y) : Except ε γ)) b.broadcast =
      ⟨.ok (a.propagate f b), a.paddingLog b.broadcast⟩ := by
  have hf : (Nullable.zipWithM fun x y => (.ok (f x y) : Except ε γ)) =
      fun s r => .ok (s.zipWith f r) := funext fun s => funext fun r => Nullable.zipWithM_ok f s r
  rw [hf, combine_ok]
  rfl

theorem propagate_comm {f : α → β → γ} {g : β → α → γ} (h : ∀ a b, f a b = g b a) (a : Column α)
    (b : Column β) : a.propagate f b = b.propagate g a := by
  apply ext_slot
  · rw [length_propagate, length_propagate, Nat.max_comm]
  · intro i _
    rw [slot_propagate, slot_propagate, Nullable.zipWith_comm h]

theorem map_propagate (u : γ → δ) (f : α → β → γ) (a : Column α) (b : Column β) :
    (a.propagate f b).map (Nullable.map u) = a.propagate (fun x y => u (f x y)) b := by
  apply ext_slot
  · simp
  · intro i _
    simp [Nullable.map_zipWith]

theorem propagate_map {σ : Type} (f : γ → δ → σ) (g : α → γ) (h : β → δ) (a : Column α) (b : Column β) :
    (a.map (Nullable.map g)).propagate f (b.map (Nullable.map h)) =
      a.propagate (fun x y => f (g x) (h y)) b := by
  apply ext_slot
  · simp
  · intro i _
    simp [Nullable.zipWith_map]

theorem map_map_values (f : α → β) (g : β → γ) (c : Column α) :
    (c.map (Nullable.map f)).map (Nullable.map g) = c.map (Nullable.map fun a => g (f a)) := by
  apply ext_slot
  · simp
  · intro i _
    simp [Nullable.map_map]

section Laws

variable {f g : α → α → α}

theorem propagate_assoc (h : ∀ a b c, f (f a b) c = f a (f b c)) (a b c : Column α) :
    (a.propagate f b).propagate f c = a.propagate f (b.propagate f c) := by
  apply ext_slot
  · simp only [length_propagate, Nat.max_assoc]
  · intro i _
    simp only [slot_propagate, Nullable.zipWith_assoc h]

theorem propagate_self (h : ∀ a, f a a = a) (a : Column α) : a.propagate f a = a := by
  apply ext_slot
  · simp
  · intro i _
    rw [slot_propagate, Nullable.zipWith_self h]

theorem propagate_distrib (h : ∀ a b c, f a (g b c) = g (f a b) (f a c)) (a b c : Column α) :
    a.propagate f (b.propagate g c) = (a.propagate f b).propagate g (a.propagate f c) := by
  apply ext_slot
  · simp only [length_propagate]
    omega
  · intro i _
    simp only [slot_propagate, Nullable.zipWith_distrib h]

end Laws

end Column

section Operations

variable {t : ElementType}

theorem run?_binary_columns {op : BinaryOperator} {f : t.Value → t.Value → Except Fault t.Value}
    (known : t.binary? op = some f) (a b : Column t.Value) (p q : Passing) :
    Operation.run? (.binary op (a.term p) (b.term q)) =
      some ((fun c => .elements (.column c)) <$> a.combine (Nullable.zipWithM f) b.broadcast) := by
  rw [run?_binary known, combine?_columns, Option.map_some, Functor.map_map]

theorem run?_binary_ok {op : BinaryOperator} {f : t.Value → t.Value → t.Value}
    (known : t.binary? op = some fun x y => .ok (f x y)) (a b : Column t.Value) (p q : Passing) :
    Operation.run? (.binary op (a.term p) (b.term q)) =
      some ⟨.ok (.elements (.column (a.propagate f b))), a.paddingLog b.broadcast⟩ := by
  rw [run?_binary_columns known, Column.combine_zipWithM_ok, Outcome.map_mk_ok]

variable {f : t.Value → t.Value → Bool}

theorem run?_compare {o : Comparison} (known : t.compare? o = some f) (a b : Column t.Value)
    (p q : Passing) : Operation.run? (.method (.compare o) (a.term p) (b.term q)) =
      some ⟨.ok (.truths (.column (a.propagate f b))), a.paddingLog b.broadcast⟩ := by
  have hrun : Operation.run? (.method (.compare o) (a.term p) (b.term q)) =
      (t.compare? o).map fun f =>
        (Answer.truths <| .column ·) <$> a.meet (Nullable.zipWith f) b.broadcast := rfl
  rw [hrun, known, Option.map_some, Column.map_meet]
  rfl

theorem run?_connect {c : Connective} (known : t.connect? c = some f) (a b : Column t.Value)
    (p q : Passing) : Operation.run? (.method (.connect c) (a.term p) (b.term q)) =
      some ⟨.ok (.truths (.column (a.propagate f b))), a.paddingLog b.broadcast⟩ := by
  have hrun : Operation.run? (.method (.connect c) (a.term p) (b.term q)) =
      (t.connect? c).map fun f =>
        (Answer.truths <| .column ·) <$> a.meet (Nullable.zipWith f) b.broadcast := rfl
  rw [hrun, known, Option.map_some, Column.map_meet]
  rfl

end Operations
end ColumnAlgebra
