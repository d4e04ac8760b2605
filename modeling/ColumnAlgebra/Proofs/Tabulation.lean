import ColumnAlgebra.Operand

/-!
# Columns made position by position

Mapping a column and combining it with a broadcast operand both fill the positions of a new column in
increasing order with a function that has effects. Main statements: such a run succeeds exactly where
it succeeds at every position, and its failure is the failure at the first position that has one.
-/

namespace ColumnAlgebra
set_option autoImplicit false

variable {α β γ ε : Type}

namespace Column

/-- The column of `n` slots whose slot at a position is what `f` gives there. -/
def tabulate {m : Type → Type} [Monad m] (n : Nat) (f : Nat → m (Nullable α)) : m (Column α) :=
  mk <$> (List.range n).mapM f

theorem slots_eq_map_range (c : Column α) : c.slots = (List.range c.length).map c.slot := by
  apply List.ext_getElem
  · simp [length]
  · intro n hn _
    simp [slot, hn]

theorem mapM_eq_tabulate {m : Type → Type} [Monad m] [LawfulMonad m]
    (f : Nullable α → m (Nullable β)) (c : Column α) :
    c.mapM f = tabulate c.length fun i => f (c.slot i) := by
  unfold mapM tabulate
  conv => lhs; rw [slots_eq_map_range, List.mapM_map]
  rfl

theorem zipWithM_eq_tabulate {m : Type → Type} [Monad m]
    (f : Nullable α → Nullable β → m (Nullable γ)) (c : Column α) (b : Broadcast β) :
    c.zipWithM f b = tabulate (c.zipLength b) fun i => f (c.slot i) (b.slot i) := rfl

theorem mapM_congr_mem {σ τ : Type} {m : Type → Type} [Monad m] [LawfulMonad m] {f g : σ → m τ}
    {xs : List σ} (h : ∀ x ∈ xs, f x = g x) : xs.mapM f = xs.mapM g := by
  induction xs with
  | nil => rfl
  | cons x xs ih =>
    have hx := h x List.mem_cons_self
    have hxs := ih fun y hy => h y (List.mem_cons_of_mem x hy)
    rw [List.mapM_cons, List.mapM_cons, hx, hxs]

theorem tabulate_congr {m : Type → Type} [Monad m] [LawfulMonad m] {n : Nat}
    {f g : Nat → m (Nullable α)} (h : ∀ i < n, f i = g i) : tabulate n f = tabulate n g := by
  unfold tabulate
  rw [mapM_congr_mem fun i hi => h i (List.mem_range.mp hi)]

theorem map_mapM {σ τ υ : Type} {m : Type → Type} [Monad m] [LawfulMonad m] (g : τ → υ) (f : σ → m τ)
    (xs : List σ) : List.map g <$> xs.mapM f = xs.mapM fun x => g <$> f x := by
  induction xs with
  | nil => simp
  | cons x xs ih =>
    rw [List.mapM_cons, List.mapM_cons, ← ih]
    simp

/-- A map over the slots can be made on the way. -/
theorem map_tabulate {m : Type → Type} [Monad m] [LawfulMonad m] (g : Nullable α → Nullable β) (n : Nat)
    (f : Nat → m (Nullable α)) : map g <$> tabulate n f = tabulate n fun i => g <$> f i := by
  unfold tabulate
  rw [← map_mapM, Functor.map_map, Functor.map_map]
  rfl

section Failures

variable {n : Nat} {f : Nat → Except ε (Nullable α)}

theorem mapM_range_succ (n : Nat) (f : Nat → Except ε (Nullable α)) :
    (List.range (n + 1)).mapM f =
      ((List.range n).mapM f >>= fun xs => f n >>= fun x => pure (xs ++ [x])) := by
  rw [List.range_succ, List.mapM_append]
  simp

/-- The first position that fails decides, and without one every position is filled. -/
theorem mapM_range_cases (n : Nat) (f : Nat → Except ε (Nullable α)) :
    (∃ xs, (List.range n).mapM f = .ok xs ∧ xs.length = n ∧
      ∀ i < n, f i = .ok (xs[i]?.getD .null)) ∨
    (∃ e, (List.range n).mapM f = .error e ∧
      ∃ i < n, f i = .error e ∧ ∀ j < i, ∃ s, f j = .ok s) := by
  induction n with
  | zero => exact Or.inl ⟨[], rfl, rfl, by simp⟩
  | succ n ih =>
    rw [mapM_range_succ]
    rcases ih with ⟨xs, hxs, hl, hf⟩ | ⟨e, he, i, hi, hfi, hfirst⟩
    · rw [hxs]
      cases hn : f n with
      | error e => exact Or.inr ⟨e, rfl, n, by omega, hn, fun j hj => ⟨_, hf j hj⟩⟩
      | ok x =>
        refine Or.inl ⟨xs ++ [x], rfl, by simp [hl], ?_⟩
        intro i hi
        by_cases hin : i = n
        · subst hin
          rw [List.getElem?_append_right (by omega), hl]
          simpa using hn
        · have hlt : i < xs.length := by omega
          rw [List.getElem?_append_left hlt]
          exact hf i (by omega)
    · rw [he]
      exact Or.inr ⟨e, rfl, i, by omega, hfi, hfirst⟩

theorem tabulate_cases (n : Nat) (f : Nat → Except ε (Nullable α)) :
    (∃ c, tabulate n f = .ok c ∧ c.length = n ∧ ∀ i < n, f i = .ok (c.slot i)) ∨
    (∃ e, tabulate n f = .error e ∧ ∃ i < n, f i = .error e ∧ ∀ j < i, ∃ s, f j = .ok s) := by
  unfold tabulate
  rcases mapM_range_cases n f with ⟨xs, hxs, hl, hf⟩ | ⟨e, he, hfirst⟩
  · exact Or.inl ⟨⟨xs⟩, by rw [hxs]; rfl, hl, hf⟩
  · exact Or.inr ⟨e, by rw [he]; rfl, hfirst⟩

theorem tabulate_eq_ok_iff {c : Column α} :
    tabulate n f = .ok c ↔ c.length = n ∧ ∀ i < n, f i = .ok (c.slot i) := by
  rcases tabulate_cases n f with ⟨d, hd, hl, hf⟩ | ⟨e, he, i, hi, hfi, _⟩
  · rw [hd, Except.ok.injEq]
    constructor
    · rintro rfl
      exact ⟨hl, hf⟩
    · rintro ⟨hl', hf'⟩
      apply ext_slot (hl.trans hl'.symm)
      intro i hi
      have hs := (hf i (by omega)).symm.trans (hf' i (by omega))
      exact Except.ok.inj hs
  · rw [he]
    constructor
    · intro h
      cases h
    · rintro ⟨_, hf⟩
      have hs := hfi.symm.trans (hf i hi)
      cases hs

theorem tabulate_eq_error_iff {e : ε} :
    tabulate n f = .error e ↔ ∃ i < n, f i = .error e ∧ ∀ j < i, ∃ s, f j = .ok s := by
  rcases tabulate_cases n f with ⟨d, hd, _, hf⟩ | ⟨e', he, i, hi, hfi, hfirst⟩
  · rw [hd]
    constructor
    · intro h
      cases h
    · rintro ⟨i, hi, hfi, _⟩
      have hs := hfi.symm.trans (hf i hi)
      cases hs
  · rw [he, Except.error.injEq]
    constructor
    · rintro rfl
      exact ⟨i, hi, hfi, hfirst⟩
    · rintro ⟨k, _, hfk, hk⟩
      -- Neither position is before the other, as each has only successes before it.
      have hik : i = k := by
        rcases Nat.lt_trichotomy i k with h | h | h
        · obtain ⟨s, hs⟩ := hk i h
          cases hfi.symm.trans hs
        · exact h
        · obtain ⟨s, hs⟩ := hfirst k h
          cases hfk.symm.trans hs
      subst k
      exact Except.error.inj (hfi.symm.trans hfk)

end Failures

section Endless

variable {n : Nat} {f : Nat → Except ε (Nullable α)} (past : ∀ i, n ≤ i → f i = .ok .null)
include past

/-- If only empty slots are made past the end, every position counts alike. -/
theorem tabulate_eq_ok_iff_forall {c : Column α} :
    tabulate n f = .ok c ↔ c.length = n ∧ ∀ i, f i = .ok (c.slot i) := by
  rw [tabulate_eq_ok_iff]
  refine and_congr_right fun hl => ⟨fun h i => ?_, fun h i _ => h i⟩
  by_cases hi : i < n
  · exact h i hi
  · rw [past i (by omega), slot_of_length_le (by omega)]

theorem exists_tabulate_eq_error_iff :
    (∃ e, tabulate n f = .error e) ↔ ∃ i e, f i = .error e := by
  constructor
  · rintro ⟨e, he⟩
    obtain ⟨i, _, hi, _⟩ := tabulate_eq_error_iff.mp he
    exact ⟨i, e, hi⟩
  · rintro ⟨i, e, hi⟩
    cases hz : tabulate n f with
    | error e' => exact ⟨e', rfl⟩
    | ok c =>
      have hs := ((tabulate_eq_ok_iff_forall past).mp hz).2 i
      cases hi.symm.trans hs

end Endless

section Values

variable {f : α → Except ε β} {c : Column α} {d : Column β}

theorem length_of_mapM (h : c.mapM (Nullable.mapM f) = .ok d) : d.length = c.length := by
  rw [mapM_eq_tabulate, tabulate_eq_ok_iff] at h
  exact h.1

/-- Past the end too, where both slots are empty. -/
theorem slot_of_mapM (h : c.mapM (Nullable.mapM f) = .ok d) (i : Nat) :
    (c.slot i).mapM f = .ok (d.slot i) := by
  have hl := length_of_mapM h
  rw [mapM_eq_tabulate, tabulate_eq_ok_iff] at h
  by_cases hi : i < c.length
  · exact h.2 i hi
  · rw [slot_of_length_le (by omega), slot_of_length_le (by omega)]
    rfl

end Values

end Column
end ColumnAlgebra
