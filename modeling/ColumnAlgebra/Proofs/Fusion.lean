import ColumnAlgebra.Proofs.Locality
import ColumnAlgebra.Proofs.Propagation

/-!
# Mapping before joining

Two columns that are mapped and then joined are padded after the map, while a join that maps the slots
itself is given the padding and maps it too. So the two agree for every joining function exactly if the
function mapped over the shorter column keeps the empty slot. Main statement: this, and that a map after
a join or after a map always goes through; the unary operators keep the empty slot and may be moved into
any operation between two columns, and the test for emptiness may not.
-/

namespace ColumnAlgebra
set_option autoImplicit false

variable {α β γ δ ε : Type}

namespace Column

section Maps

variable {h : Nullable α → Nullable γ} {k : Nullable β → Nullable δ} {a : Column α} {b : Column β}

theorem slot_map_below {n i : Nat} (kept : a.length < n → h .null = .null) (hi : i < n) :
    (a.map h).slot i = h (a.slot i) := by
  by_cases hn : a.length < n
  · exact slot_map_of_null (kept hn) a i
  · exact slot_map (by omega)

theorem paddingLog_map : (a.map h).paddingLog (b.map k).broadcast = a.paddingLog b.broadcast := by
  simp only [paddingLog, Column.broadcast, length_map]

theorem zipWithM_map {m : Type → Type} {σ : Type} [Monad m] [LawfulMonad m]
    (ha : a.length < b.length → h .null = .null) (hb : b.length < a.length → k .null = .null)
    (f : Nullable γ → Nullable δ → m (Nullable σ)) :
    (a.map h).zipWithM f (b.map k).broadcast =
      a.zipWithM (fun l r => f (h l) (k r)) b.broadcast := by
  simp only [zipWithM_eq_tabulate, zipLength_column, length_map]
  apply tabulate_congr
  intro i hi
  have hl : (a.map h).slot i = h (a.slot i) := slot_map_below (fun hlt => ha (by omega)) hi
  have hr : (b.map k).slot i = k (b.slot i) := slot_map_below (fun hlt => hb (by omega)) hi
  simp only [Column.broadcast, hl, hr]

theorem combine_map {σ : Type} (ha : a.length < b.length → h .null = .null)
    (hb : b.length < a.length → k .null = .null)
    (f : Nullable γ → Nullable δ → Except ε (Nullable σ)) :
    (a.map h).combine f (b.map k).broadcast = a.combine (fun l r => f (h l) (k r)) b.broadcast := by
  rw [combine, zipWithM_map ha hb, paddingLog_map, combine]

/-- Joining the mapped columns is joining the columns by way of the mapped slots, whatever joins them. -/
def Fuses (h : Nullable α → Nullable γ) (k : Nullable β → Nullable δ) (a : Column α) (b : Column β) :
    Prop :=
  ∀ (σ : Type) (f : Nullable γ → Nullable δ → Nullable σ),
    ((a.map h).meet f (b.map k).broadcast : Outcome Fault (Column σ)) =
      a.meet (fun l r => f (h l) (k r)) b.broadcast

/-- The pair of the slots tells whether each of them has been mapped. -/
theorem Fuses.slots {i : Nat} (fuses : Fuses h k a b) (hi : i < max a.length b.length) :
    (a.map h).slot i = h (a.slot i) ∧ (b.map k).slot i = k (b.slot i) := by
  have hpair := congrArg Outcome.result (fuses _ fun l r => .value (l, r))
  have hslot := congrArg (fun c => c.slot i) (Except.ok.inj hpair)
  have hmapped : i < (a.map h).zipLength (b.map k).broadcast := by simpa using hi
  have hplain : i < a.zipLength b.broadcast := hi
  simp only [slot_zipWith hmapped, slot_zipWith hplain] at hslot
  exact Prod.mk.inj (Nullable.value.inj hslot)

theorem null_of_slot_map (hs : (a.map h).slot a.length = h (a.slot a.length)) : h .null = .null := by
  have hmapped : (a.map h).slot a.length = .null := slot_of_length_le (by simp)
  have hplain : a.slot a.length = .null := slot_of_length_le (Nat.le_refl _)
  rw [hmapped, hplain] at hs
  exact hs.symm

theorem fuses_iff : Fuses h k a b ↔
    (a.length < b.length → h .null = .null) ∧ (b.length < a.length → k .null = .null) := by
  constructor
  · intro fuses
    refine ⟨fun hlt => ?_, fun hlt => ?_⟩
    · exact null_of_slot_map (fuses.slots (by omega)).1
    · exact null_of_slot_map (fuses.slots (by omega)).2
  · rintro ⟨ha, hb⟩ σ f
    rw [← combine_ok, combine_map ha hb, combine_ok]

theorem map_zipWith {σ : Type} (g : Nullable γ → Nullable σ) (f : Nullable α → Nullable β → Nullable γ)
    (c : Column α) (r : Broadcast β) : (c.zipWith f r).map g = c.zipWith (fun x y => g (f x y)) r := by
  simp [map, zipWith]

theorem map_combine {σ : Type} (g : Nullable γ → Nullable σ)
    (f : Nullable α → Nullable β → Except ε (Nullable γ)) (c : Column α) (r : Broadcast β) :
    Column.map g <$> c.combine f r = c.combine (fun x y => g <$> f x y) r := by
  have hz : c.zipWithM (fun x y => g <$> f x y) r = Column.map g <$> c.zipWithM f r :=
    (map_tabulate g _ _).symm
  rw [combine, combine, hz]
  rcases c.zipWithM f r with e | d
  · rfl
  · exact Outcome.map_mk_ok _ _ _

theorem map_map (g : Nullable γ → Nullable δ) (h : Nullable α → Nullable γ) (c : Column α) :
    (c.map h).map g = c.map fun s => g (h s) := by
  simp [map]

/-- The test for emptiness is true of the padding, while the padding of a tested column is empty. -/
theorem meet_isNull_ne {σ : Type} (p : Bool → Bool → σ) (hl : a.length ≠ b.length) :
    ((a.map fun s => .value s.isNull).meet (Nullable.zipWith p)
        (b.map fun s => .value s.isNull).broadcast : Outcome Fault (Column σ)) ≠
      a.meet (fun l r => Nullable.zipWith p (.value l.isNull) (.value r.isNull)) b.broadcast := by
  intro heq
  have hslot := congrArg (fun c => c.slot (min a.length b.length))
    (Except.ok.inj (congrArg Outcome.result heq))
  have hplain : min a.length b.length < a.zipLength b.broadcast := by
    rw [zipLength_column]
    omega
  change ((a.map fun s => .value s.isNull).propagate p (b.map fun s => .value s.isNull)).slot _ = _
    at hslot
  rw [slot_propagate, slot_zipWith hplain, Nullable.zipWith_value] at hslot
  rcases Nat.lt_or_gt_of_ne hl with hlt | hlt
  · have hnull : (a.map fun s => .value s.isNull).slot (min a.length b.length) = .null :=
      slot_of_length_le (by rw [length_map]; omega)
    rw [hnull, Nullable.zipWith_null_left] at hslot
    cases hslot
  · have hnull : (b.map fun s => .value s.isNull).slot (min a.length b.length) = .null :=
      slot_of_length_le (by rw [length_map]; omega)
    rw [hnull, Nullable.zipWith_null_right] at hslot
    cases hslot

end Maps

section Unary

variable {σ : Type} {f : α → Except ε γ} {g : β → Except ε δ}

theorem slot_of_mapM_eq_null_iff {c : Column α} {d : Column γ}
    (h : c.mapM (Nullable.mapM f) = .ok d) (i : Nat) : d.slot i = .null ↔ c.slot i = .null := by
  have hs := slot_of_mapM h i
  cases hc : c.slot i with
  | null =>
    rw [hc] at hs
    have hd : Nullable.null = d.slot i := Except.ok.inj hs
    simp [← hd]
  | value x =>
    rw [hc, Nullable.mapM] at hs
    cases hx : f x with
    | error e =>
      rw [hx] at hs
      cases hs
    | ok y =>
      rw [hx] at hs
      have hd : Nullable.value y = d.slot i := Except.ok.inj hs
      simp [← hd]

theorem combine_of_mapM {a : Column α} {a' : Column γ} {b : Column β} {b' : Column δ}
    (ha : a.mapM (Nullable.mapM f) = .ok a') (hb : b.mapM (Nullable.mapM g) = .ok b')
    (j : Nullable γ → Nullable δ → Except ε (Nullable σ)) :
    a'.combine j b'.broadcast =
      a.combine (fun l r => do j (← l.mapM f) (← r.mapM g)) b.broadcast := by
  have hla := length_of_mapM ha
  have hlb := length_of_mapM hb
  have hz : a'.zipWithM j b'.broadcast =
      a.zipWithM (fun l r => do j (← l.mapM f) (← r.mapM g)) b.broadcast := by
    simp only [zipWithM_eq_tabulate, zipLength_column, hla, hlb]
    apply tabulate_congr
    intro i _
    simp only [Column.broadcast, slot_of_mapM ha i, slot_of_mapM hb i]
    rfl
  have hlog : a'.paddingLog b'.broadcast = a.paddingLog b.broadcast := by
    simp only [paddingLog, Column.broadcast, hla, hlb]
  rw [combine, hz, hlog, combine]

theorem combine_bind_of_mapM {a : Column α} {r : Broadcast β} {c : Column γ} {d : Column δ}
    {log : List LogRecord} {j : Nullable α → Nullable β → Except ε (Nullable γ)} {u : γ → Except ε δ}
    (hc : a.combine j r = ⟨.ok c, log⟩) (hd : c.mapM (Nullable.mapM u) = .ok d) :
    a.combine (fun x y => j x y >>= Nullable.mapM u) r = ⟨.ok d, log⟩ := by
  obtain ⟨hz, rfl⟩ := Outcome.mk.inj hc
  rw [zipWithM_eq_tabulate, tabulate_eq_ok_iff] at hz
  have hu : a.zipWithM (fun x y => j x y >>= Nullable.mapM u) r = .ok d := by
    rw [zipWithM_eq_tabulate, tabulate_eq_ok_iff]
    refine ⟨(length_of_mapM hd).trans hz.1, fun i hi => ?_⟩
    rw [hz.2 i hi]
    exact slot_of_mapM hd i
  rw [combine, hu]

end Unary

end Column

open Column

/-- What a unary operator, or logical negation, makes of a column where it has no fault, and the function
that it applies to the values. -/
inductive UnaryColumn {t : ElementType} (c : Column t.Value) :
    (u : ElementType) → (t.Value → Except Fault u.Value) → Column u.Value → Prop where
  | operator {op : UnaryOperator} {f : t.Value → Except Fault t.Value} {p : Passing}
      {d : Column t.Value} (known : t.unary? op = some f)
      (run : Operation.run? (.unary op (c.term p)) = some (.ok (.elements (.column d)))) :
      UnaryColumn c t f d
  | logicalNot {truthy : t.Value → Bool} {p : Passing} {d : Column Bool}
      (known : t.truthy? = some truthy)
      (run : Operation.run? (.logicalNot (c.term p)) = some (.ok (.truths (.column d)))) :
      UnaryColumn c .bool (fun x => .ok (!truthy x)) d

/-- The operation joins its two columns position by position. -/
def JoinsBy {t : ElementType} (two : Term t.Value → Term t.Value → Operation (Term t.Value))
    (j : Nullable t.Value → Nullable t.Value → Except Fault (Nullable γ)) (answer : Column γ → Answer t) :
    Prop :=
  ∀ (c d : Column t.Value) (p q : Passing),
    Operation.run? (two (c.term p) (d.term q)) = some (answer <$> c.combine j d.broadcast)

section Operations

variable {t u : ElementType}

theorem UnaryColumn.mapM {c : Column t.Value} {f : t.Value → Except Fault u.Value} {d : Column u.Value}
    (h : UnaryColumn c u f d) : c.mapM (Nullable.mapM f) = .ok d := by
  cases h with
  | operator known run =>
    rw [run?_unary_column known, Outcome.ofExcept_map] at run
    obtain ⟨e, he, hd⟩ := Outcome.exists_of_map_eq (Option.some.inj run)
    cases hd
    exact congrArg Outcome.result he
  | logicalNot known run =>
    rw [run?_logicalNot_column known, Outcome.ofExcept_map] at run
    obtain ⟨e, he, hd⟩ := Outcome.exists_of_map_eq (Option.some.inj run)
    cases hd
    exact congrArg Outcome.result he

theorem UnaryColumn.of_operator {c d : Column t.Value} {op : UnaryOperator}
    {f : t.Value → Except Fault t.Value} (known : t.unary? op = some f)
    (h : c.mapM (Nullable.mapM f) = .ok d) : UnaryColumn c t f d := by
  refine .operator (p := .given) known ?_
  rw [run?_unary_column known, h]
  rfl

theorem UnaryColumn.of_logicalNot {c : Column t.Value} {d : Column Bool} {truthy : t.Value → Bool}
    (known : t.truthy? = some truthy)
    (h : c.mapM (Nullable.mapM fun x => (.ok (!truthy x) : Except Fault Bool)) = .ok d) :
    UnaryColumn c .bool (fun x => .ok (!truthy x)) d := by
  refine .logicalNot (p := .given) known ?_
  rw [run?_logicalNot_column known, h]
  rfl

/-- Every operator or method that runs on two columns joins them by one function. -/
theorem TwoTerms.exists_joinsBy {two : Term t.Value → Term t.Value → Operation (Term t.Value)}
    (h : TwoTerms two) {a b : Column t.Value} {p q : Passing} {x : Outcome Fault (Answer t)}
    (hx : Operation.run? (two (a.term p) (b.term q)) = some x) :
    ∃ (γ : Type) (j : Nullable t.Value → Nullable t.Value → Except Fault (Nullable γ))
      (answer : Column γ → Answer t), JoinsBy two j answer := by
  cases h with
  | binary op =>
    obtain ⟨f, known, -⟩ := Option.bind_eq_some_iff.mp hx
    exact ⟨t.Value, Nullable.zipWithM f, fun c => .elements (.column c), run?_binary_columns known⟩
  | method m =>
    cases m with
    | equal =>
      refine ⟨Bool, fun x y => .ok (.value (x.equal t.beq y)), fun c => .truths (.column c), ?_⟩
      intro c d p q
      rw [combine_ok]
      rfl
    | notEqual =>
      refine ⟨Bool, fun x y => .ok (.value (x.notEqual t.beq y)), fun c => .truths (.column c), ?_⟩
      intro c d p q
      rw [combine_ok]
      rfl
    | compare o =>
      obtain ⟨f, known, -⟩ := Option.map_eq_some_iff.mp hx
      refine ⟨Bool, fun x y => .ok (Nullable.zipWith f x y), fun c => .truths (.column c), ?_⟩
      intro c d p q
      rw [combine_ok, map_meet]
      exact run?_compare known c d p q
    | connect o =>
      obtain ⟨f, known, -⟩ := Option.map_eq_some_iff.mp hx
      refine ⟨Bool, fun x y => .ok (Nullable.zipWith f x y), fun c => .truths (.column c), ?_⟩
      intro c d p q
      rw [combine_ok, map_meet]
      exact run?_connect known c d p q
    | checked op =>
      obtain ⟨f, known, -⟩ := Option.map_eq_some_iff.mp hx
      refine ⟨t.Value, fun x y => .ok (Nullable.zipWithOption f x y), fun c => .elements (.column c), ?_⟩
      intro c d p q
      rw [combine_ok]
      simp only [Operation.run?, Method.call?, Column.term, Method.onColumn?, known]
      rfl

end Operations

/-- Two columns can be mapped before they are joined, by whatever function, exactly if they have one
length or the function mapped over the shorter one keeps the empty slot. A map after a join, or after
another map, can always be done on the way. The unary operators keep the empty slots and make no others,
so where they have no fault they can be moved into a join, and into every operator or method of two
columns that the type has, from either operand and from the result, at any lengths. The test for
emptiness can not be moved into a single operator that propagates emptiness, unless the lengths are
equal. -/
theorem map_join_fusion :
    (∀ (α β γ δ : Type) (h : Nullable α → Nullable γ) (k : Nullable β → Nullable δ) (a : Column α)
      (b : Column β), Fuses h k a b ↔ a.length = b.length ∨
        (a.length < b.length ∧ h .null = .null) ∨ (b.length < a.length ∧ k .null = .null)) ∧
    (∀ (α β γ δ : Type) (f : Nullable α → Nullable β → Nullable γ) (g : Nullable γ → Nullable δ)
      (a : Column α) (b : Column β), (Column.map g <$> a.meet f b.broadcast : Outcome Fault _) =
        a.meet (fun l r => g (f l r)) b.broadcast) ∧
    (∀ (α β γ : Type) (h : Nullable α → Nullable β) (g : Nullable β → Nullable γ) (a : Column α),
      (a.map h).map g = a.map fun s => g (h s)) ∧
    (∀ (t : ElementType) (c : Column t.Value),
      (∀ op f, t.unary? op = some f → ∀ d : Column t.Value, c.mapM (Nullable.mapM f) = .ok d →
        UnaryColumn c t f d) ∧
      ∀ truthy, t.truthy? = some truthy → ∀ d : Column Bool,
        c.mapM (Nullable.mapM fun x => (.ok (!truthy x) : Except Fault Bool)) = .ok d →
          UnaryColumn c .bool (fun x => .ok (!truthy x)) d) ∧
    (∀ (t u : ElementType) (c : Column t.Value) (f : t.Value → Except Fault u.Value)
      (d : Column u.Value), UnaryColumn c u f d →
        (d.length = c.length ∧ ∀ i, d.slot i = .null ↔ c.slot i = .null) ∧
        ∀ (α β : Type) (a : Column α) (b : Column β) j log, a.combine j b.broadcast = ⟨.ok c, log⟩ →
          a.combine (fun l r => j l r >>= Nullable.mapM f) b.broadcast = ⟨.ok d, log⟩) ∧
    (∀ (t t' u u' : ElementType) (a : Column t.Value) (b : Column t'.Value) f g
      (a' : Column u.Value) (b' : Column u'.Value), UnaryColumn a u f a' → UnaryColumn b u' g b' →
        ∀ (σ : Type) (j : Nullable u.Value → Nullable u'.Value → Except Fault (Nullable σ)),
          a'.combine j b'.broadcast =
            a.combine (fun l r => do j (← l.mapM f) (← r.mapM g)) b.broadcast) ∧
    (∀ (t t' u : ElementType) (a : Column t.Value) (b : Column t'.Value) f g
      (a' b' : Column u.Value), UnaryColumn a u f a' → UnaryColumn b u g b' →
        ∀ two, TwoTerms two → ∀ p q,
          ((Operation.run? (two (a'.term p) (b'.term q))).isSome ↔ Suited u two) ∧
          ∀ x, Operation.run? (two (a'.term p) (b'.term q)) = some x →
            ∃ (σ : Type) (j : _ → _ → Except Fault (Nullable σ)) (answer : Column σ → Answer u),
              JoinsBy two j answer ∧
              x = answer <$> a.combine (fun l r => do j (← l.mapM f) (← r.mapM g)) b.broadcast) ∧
    (∀ (α β σ : Type) (p : Bool → Bool → σ) (a : Column α) (b : Column β), a.length ≠ b.length →
      ((a.map fun s => .value s.isNull).meet (Nullable.zipWith p)
          (b.map fun s => .value s.isNull).broadcast : Outcome Fault (Column σ)) ≠
        a.meet (fun l r => Nullable.zipWith p (.value l.isNull) (.value r.isNull)) b.broadcast) := by
  refine ⟨?_, ?_, ?_, ?_, ?_, ?_, ?_, ?_⟩
  · intro α β γ δ h k a b
    rw [fuses_iff]
    constructor
    · rintro ⟨ha, hb⟩
      rcases Nat.lt_trichotomy a.length b.length with hl | hl | hl
      · exact Or.inr (Or.inl ⟨hl, ha hl⟩)
      · exact Or.inl hl
      · exact Or.inr (Or.inr ⟨hl, hb hl⟩)
    · rintro (hl | ⟨hl, hnull⟩ | ⟨hl, hnull⟩)
      · exact ⟨fun hlt => by omega, fun hlt => by omega⟩
      · exact ⟨fun _ => hnull, fun hlt => by omega⟩
      · exact ⟨fun hlt => by omega, fun _ => hnull⟩
  · intro α β γ δ f g a b
    rw [map_meet, map_zipWith, meet]
  · intro α β γ h g a
    exact map_map g h a
  · intro t c
    exact ⟨fun op f known d h => .of_operator known h, fun truthy known d h => .of_logicalNot known h⟩
  · intro t u c f d hd
    have hmapM := hd.mapM
    refine ⟨⟨length_of_mapM hmapM, slot_of_mapM_eq_null_iff hmapM⟩, ?_⟩
    intro α β a b j log hc
    exact combine_bind_of_mapM hc hmapM
  · intro t t' u u' a b f g a' b' ha hb σ j
    exact combine_of_mapM ha.mapM hb.mapM j
  · intro t t' u a b f g a' b' ha hb two htwo p q
    refine ⟨run?_columns_isSome_iff a' b' htwo p q, fun x hx => ?_⟩
    obtain ⟨σ, j, answer, joins⟩ := htwo.exists_joinsBy hx
    refine ⟨σ, j, answer, joins, ?_⟩
    rw [← combine_of_mapM ha.mapM hb.mapM j]
    exact Option.some.inj (hx.symm.trans (joins a' b' p q))
  · intro α β σ p a b hl
    exact meet_isNull_ne p hl

end ColumnAlgebra
