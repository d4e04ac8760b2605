import ColumnAlgebra.Proofs.Fusion

/-!
# Masked columns

An operator between two columns is applied to the slots at each position, and what it makes of them is
seen at every position, also past the ends. Main statements: when it has a fault and what column it
gives, and that the column is masked by the operands: its length and its empty slots are theirs, whatever
the operator does.
-/

namespace ColumnAlgebra
set_option autoImplicit false

variable {α β γ δ ε : Type}

namespace Nullable

section Binary

variable {f : α → β → Except ε γ} {s : Nullable α} {r : Nullable β} {u : Nullable γ}

theorem zipWithM_eq_ok_iff : s.zipWithM f r = .ok u ↔
    u = .null ∧ (s = .null ∨ r = .null) ∨
      ∃ x y z, s = .value x ∧ r = .value y ∧ u = .value z ∧ f x y = .ok z := by
  cases s with
  | null => simp [zipWithM, pure, Except.pure, eq_comm]
  | value x =>
    cases r with
    | null => simp [zipWithM, pure, Except.pure, eq_comm]
    | value y =>
      cases h : f x y with
      | error e => simp [zipWithM, h, Functor.map, Except.map]
      | ok z => simp [zipWithM, h, Functor.map, Except.map, eq_comm]

theorem zipWithM_eq_error_iff {e : ε} : s.zipWithM f r = .error e ↔
    ∃ x y, s = .value x ∧ r = .value y ∧ f x y = .error e := by
  cases s with
  | null => simp [zipWithM, pure, Except.pure]
  | value x =>
    cases r with
    | null => simp [zipWithM, pure, Except.pure]
    | value y => cases h : f x y <;> simp [zipWithM, h, Functor.map, Except.map]

theorem eq_null_iff_of_zipWithM (h : s.zipWithM f r = .ok u) : u = .null ↔ s = .null ∨ r = .null := by
  rcases zipWithM_eq_ok_iff.mp h with ⟨rfl, hnull⟩ | ⟨x, y, z, rfl, rfl, rfl, -⟩
  · simp [hnull]
  · simp

end Binary

section Unary

variable {f : α → Except ε γ} {s : Nullable α} {u : Nullable γ}

theorem mapM_eq_ok_iff : s.mapM f = .ok u ↔
    u = .null ∧ s = .null ∨ ∃ x z, s = .value x ∧ u = .value z ∧ f x = .ok z := by
  cases s with
  | null => simp [mapM, pure, Except.pure, eq_comm]
  | value x =>
    cases h : f x with
    | error e => simp [mapM, h, Functor.map, Except.map]
    | ok z => simp [mapM, h, Functor.map, Except.map, eq_comm]

theorem mapM_eq_error_iff {e : ε} : s.mapM f = .error e ↔ ∃ x, s = .value x ∧ f x = .error e := by
  cases s with
  | null => simp [mapM, pure, Except.pure]
  | value x => cases h : f x <;> simp [mapM, h, Functor.map, Except.map]

/-- A value to the left of an operator makes of it a function of the slot to the right. -/
theorem value_zipWithM (f : α → β → Except ε γ) (x : α) : (value x).zipWithM f = Nullable.mapM (f x) := by
  funext r
  cases r <;> rfl

theorem zipWithM_value (f : α → β → Except ε γ) (s : Nullable α) (y : β) :
    s.zipWithM f (value y) = s.mapM fun x => f x y := by
  cases s <;> rfl

end Unary

end Nullable

namespace Column

/-- As long as the longest of the operands, and empty at the positions where one of them is. -/
structure MaskedBy (d : Column γ) (operands : List (Column α)) : Prop where
  length : (operands.map Column.length).max? = some d.length
  null_iff : ∀ i, d.slot i = .null ↔ ∃ a ∈ operands, a.slot i = .null

section Masks

variable {a b c d m : Column α}

theorem maskedBy_single_iff {d : Column γ} : d.MaskedBy [a] ↔
    d.length = a.length ∧ ∀ i, d.slot i = .null ↔ a.slot i = .null := by
  constructor
  · intro h
    exact ⟨(Option.some.inj h.length).symm, by simpa using h.null_iff⟩
  · rintro ⟨hl, hs⟩
    exact ⟨congrArg some hl.symm, by simpa using hs⟩

theorem maskedBy_pair_iff {d : Column γ} : d.MaskedBy [a, b] ↔
    d.length = max a.length b.length ∧ ∀ i, d.slot i = .null ↔ a.slot i = .null ∨ b.slot i = .null := by
  constructor
  · intro h
    exact ⟨(Option.some.inj h.length).symm, by simpa using h.null_iff⟩
  · rintro ⟨hl, hs⟩
    exact ⟨congrArg some hl.symm, by simpa using hs⟩

/-- Masked by the same columns, masked alike. -/
theorem MaskedBy.trans {d : Column γ} (hd : d.MaskedBy [m]) {operands : List (Column δ)}
    (hm : m.MaskedBy operands) : d.MaskedBy operands := by
  obtain ⟨hl, hs⟩ := maskedBy_single_iff.mp hd
  exact ⟨by rw [hl, hm.length], fun i => (hs i).trans (hm.null_iff i)⟩

theorem MaskedBy.triple_left {d : Column γ} (hd : d.MaskedBy [m, c]) (hm : m.MaskedBy [a, b]) :
    d.MaskedBy [a, b, c] := by
  obtain ⟨hl, hs⟩ := maskedBy_pair_iff.mp hd
  obtain ⟨hml, hms⟩ := maskedBy_pair_iff.mp hm
  refine ⟨congrArg some ?_, fun i => ?_⟩
  · rw [hl, hml]
    rfl
  · rw [hs, hms]
    simp [or_assoc]

theorem MaskedBy.triple_right {d : Column γ} (hd : d.MaskedBy [a, m]) (hm : m.MaskedBy [b, c]) :
    d.MaskedBy [a, b, c] := by
  obtain ⟨hl, hs⟩ := maskedBy_pair_iff.mp hd
  obtain ⟨hml, hms⟩ := maskedBy_pair_iff.mp hm
  refine ⟨congrArg some ?_, fun i => ?_⟩
  · rw [hl, hml, ← Nat.max_assoc]
    rfl
  · rw [hs, hms]
    simp

theorem maskedBy_propagate (f : α → α → γ) (a b : Column α) : (a.propagate f b).MaskedBy [a, b] := by
  refine maskedBy_pair_iff.mpr ⟨length_propagate f a b, fun i => ?_⟩
  rw [slot_propagate]
  exact Nullable.zipWith_eq_null_iff

theorem maskedBy_map (f : α → γ) (a : Column α) : (a.map (Nullable.map f)).MaskedBy [a] := by
  refine maskedBy_single_iff.mpr ⟨length_map _ a, fun i => ?_⟩
  rw [slot_map_map]
  exact Nullable.map_eq_null_iff

end Masks

section Binary

variable {f : α → β → Except ε γ} {a : Column α} {b : Column β} {c : Column γ}

theorem zipWithM_past (f : α → β → Except ε γ) (a : Column α) (b : Column β) (i : Nat)
    (h : max a.length b.length ≤ i) : (a.slot i).zipWithM f (b.slot i) = .ok .null := by
  rw [slot_of_length_le (by omega : a.length ≤ i)]
  rfl

theorem zipWithM_eq_ok_iff : a.zipWithM (Nullable.zipWithM f) b.broadcast = .ok c ↔
    c.length = max a.length b.length ∧ ∀ i, (a.slot i).zipWithM f (b.slot i) = .ok (c.slot i) :=
  tabulate_eq_ok_iff_forall (zipWithM_past f a b)

theorem exists_zipWithM_eq_error_iff :
    (∃ e, a.zipWithM (Nullable.zipWithM f) b.broadcast = .error e) ↔
      ∃ i x y, a.slot i = .value x ∧ b.slot i = .value y ∧ ∃ e, f x y = .error e := by
  refine (exists_tabulate_eq_error_iff (zipWithM_past f a b)).trans (exists_congr fun i => ?_)
  constructor
  · rintro ⟨e, he⟩
    obtain ⟨x, y, hx, hy, hf⟩ := Nullable.zipWithM_eq_error_iff.mp he
    exact ⟨x, y, hx, hy, e, hf⟩
  · rintro ⟨x, y, hx, hy, e, hf⟩
    exact ⟨e, Nullable.zipWithM_eq_error_iff.mpr ⟨x, y, hx, hy, hf⟩⟩

theorem maskedBy_of_zipWithM {f : α → α → Except ε γ} {a b : Column α} {c : Column γ}
    (h : a.zipWithM (Nullable.zipWithM f) b.broadcast = .ok c) : c.MaskedBy [a, b] := by
  obtain ⟨hl, hs⟩ := zipWithM_eq_ok_iff.mp h
  exact maskedBy_pair_iff.mpr ⟨hl, fun i => Nullable.eq_null_iff_of_zipWithM (hs i)⟩

theorem zipWithM_comm {f : α → β → Except ε γ} {g : β → α → Except ε γ} (h : ∀ x y, f x y = g y x)
    (a : Column α) (b : Column β) : a.zipWithM (Nullable.zipWithM f) b.broadcast =
      b.zipWithM (Nullable.zipWithM g) a.broadcast := by
  have hslot (s : Nullable α) (r : Nullable β) : s.zipWithM f r = r.zipWithM g s := by
    cases s <;> cases r <;> simp [Nullable.zipWithM, h]
  rw [zipWithM_eq_tabulate, zipWithM_eq_tabulate, zipLength_column, zipLength_column, Nat.max_comm]
  exact tabulate_congr fun i _ => hslot _ _

theorem zipWithM_ok {u : α → β → γ} (h : ∀ x y, f x y = .ok (u x y)) (a : Column α) (b : Column β) :
    a.zipWithM (Nullable.zipWithM f) b.broadcast = .ok (a.propagate u b) := by
  have hf : f = fun x y => .ok (u x y) := funext fun x => funext fun y => h x y
  rw [hf]
  exact congrArg Outcome.result (combine_zipWithM_ok u a b)

/-- A function without faults on the values of two columns that are themselves made so. -/
theorem zipWithM_propagate {η : Type} {h : γ → δ → Except ε η} {f : α → β → γ} {g : α → β → δ}
    {u : α → β → η} (hfg : ∀ x y, h (f x y) (g x y) = .ok (u x y)) (a : Column α) (b : Column β) :
    (a.propagate f b).zipWithM (Nullable.zipWithM h) (a.propagate g b).broadcast =
      .ok (a.propagate u b) := by
  refine zipWithM_eq_ok_iff.mpr ⟨by simp, fun i => ?_⟩
  rw [slot_propagate, slot_propagate, slot_propagate]
  cases a.slot i with
  | null => rfl
  | value x =>
    cases b.slot i with
    | null => rfl
    | value y => simp [Nullable.zipWithM, hfg, Functor.map, Except.map]

end Binary

section Unary

variable {f g : α → Except ε γ} {a : Column α} {c : Column γ}

theorem mapM_eq_ok_iff : a.mapM (Nullable.mapM f) = .ok c ↔
    c.length = a.length ∧ ∀ i, (a.slot i).mapM f = .ok (c.slot i) := by
  rw [mapM_eq_tabulate]
  refine tabulate_eq_ok_iff_forall fun i hi => ?_
  rw [slot_of_length_le hi]
  rfl

theorem exists_mapM_eq_error_iff : (∃ e, a.mapM (Nullable.mapM f) = .error e) ↔
    ∃ i x, a.slot i = .value x ∧ ∃ e, f x = .error e := by
  rw [mapM_eq_tabulate, exists_tabulate_eq_error_iff]
  · refine exists_congr fun i => ?_
    constructor
    · rintro ⟨e, he⟩
      obtain ⟨x, hx, hf⟩ := Nullable.mapM_eq_error_iff.mp he
      exact ⟨x, hx, e, hf⟩
    · rintro ⟨x, hx, e, hf⟩
      exact ⟨e, Nullable.mapM_eq_error_iff.mpr ⟨x, hx, hf⟩⟩
  · intro i hi
    rw [slot_of_length_le hi]
    rfl

theorem exists_of_mapM_eq_error {e : ε} (h : a.mapM (Nullable.mapM f) = .error e) :
    ∃ i x, a.slot i = .value x ∧ f x = .error e := by
  rw [mapM_eq_tabulate] at h
  obtain ⟨i, _, hi, _⟩ := tabulate_eq_error_iff.mp h
  exact ⟨i, Nullable.mapM_eq_error_iff.mp hi⟩

theorem maskedBy_of_mapM (h : a.mapM (Nullable.mapM f) = .ok c) : c.MaskedBy [a] :=
  maskedBy_single_iff.mpr ⟨length_of_mapM h, slot_of_mapM_eq_null_iff h⟩

theorem mapM_map {u : β → α} (f : α → Except ε γ) (b : Column β) :
    (b.map (Nullable.map u)).mapM (Nullable.mapM f) = b.mapM (Nullable.mapM fun x => f (u x)) := by
  have hslot : Nullable.mapM f ∘ Nullable.map u = Nullable.mapM fun x => f (u x) := by
    funext s
    cases s <;> rfl
  rw [mapM, map, List.mapM_map, hslot, mapM]

/-- A single value to the right of a column is met by every slot. -/
theorem zipWithM_value (f : α → β → Except ε γ) (a : Column α) (y : β) :
    a.zipWithM (Nullable.zipWithM f) (Nullable.value y).broadcast =
      a.mapM (Nullable.mapM fun x => f x y) := by
  rw [zipWithM_eq_tabulate, mapM_eq_tabulate]
  exact tabulate_congr fun i _ => Nullable.zipWithM_value f _ y

end Unary

end Column

end ColumnAlgebra
