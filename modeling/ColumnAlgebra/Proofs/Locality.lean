import ColumnAlgebra.Proofs.ColumnEquality
import ColumnAlgebra.Proofs.Indexing

/-!
# The slot of a result

The methods and the unary operators are offered by columns, by nullables and, but for the checked ones,
by handles. Main statement: the slot of a column's result at any index is the result on the slots at
that index, on either of the other two ways. Equality, which never gives an empty slot, is the exception
out of range: there the column's result has no slot, while two single slots are still compared.
-/

namespace ColumnAlgebra
set_option autoImplicit false

variable {α β γ : Type}

/-- The slot at an index of a column; any other term stands for the same slot everywhere. -/
def Term.slotAt (i : SlotIndex) : Term α → Nullable α
  | operand (.nullable s) => s
  | operand (.handle h _) => h.get
  | operand (.column d _) => d.slotAt i
  | literal l => l.slot

/-- A column of results, and its slot at an index as a result of its own. -/
inductive Answer.ShowsAt {t : ElementType} (i : SlotIndex) : Answer t → Answer t → Prop where
  | elements (c : Column t.Value) :
    ShowsAt i (.elements (.column c)) (.elements (.nullable (c.slotAt i)))
  | truths (c : Column Bool) : ShowsAt i (.truths (.column c)) (.truths (.nullable (c.slotAt i)))

namespace Method

/-- A slot of the result is empty where a slot of the operands is. -/
def IsPropagating : Method → Prop
  | equal | notEqual => False
  | compare _ | connect _ | checked _ => True

def IsChecked : Method → Prop
  | checked _ => True
  | _ => False

end Method

theorem Term.slot_broadcast {i : SlotIndex} {n : Nat} (h : i.position? = some n) (r : Term α) :
    r.broadcast.slot n = r.slotAt i := by
  rcases r with (s | ⟨k, p⟩ | ⟨d, p⟩) | l
  · rfl
  · rfl
  · simp only [slotAt, Column.slotAt, h]
    rfl
  · rfl

namespace Column

variable {i : SlotIndex}

theorem slotAt_of_position? {n : Nat} (h : i.position? = some n) (c : Column α) :
    c.slotAt i = c.slot n := by
  rw [slotAt, h]

theorem slotAt_zipWith_of_inRange {f : Nullable α → Nullable α → Nullable γ} {c : Column α}
    {r : Term α} (h : i.InRange (c.zipLength r.broadcast)) :
    (c.zipWith f r.broadcast).slotAt i = f (c.slotAt i) (r.slotAt i) := by
  obtain ⟨n, hn, hi⟩ := SlotIndex.inRange_iff.mp h
  rw [slotAt_of_position? hi, slotAt_of_position? hi, slot_zipWith hn, r.slot_broadcast hi]

theorem slotAt_zipWith_of_not_inRange {f : Nullable α → Nullable α → Nullable γ} {c : Column α}
    {r : Term α} (h : ¬i.InRange (c.zipLength r.broadcast)) :
    (c.zipWith f r.broadcast).slotAt i = .null :=
  slotAt_of_not_inRange (by rwa [length_zipWith])

/-- If the result is empty where the left slot is, the range does not matter. -/
theorem slotAt_zipWith {f : Nullable α → Nullable α → Nullable γ} (hf : ∀ s, f .null s = .null)
    (c : Column α) (r : Term α) (i : SlotIndex) :
    (c.zipWith f r.broadcast).slotAt i = f (c.slotAt i) (r.slotAt i) := by
  by_cases h : i.InRange (c.zipLength r.broadcast)
  · exact slotAt_zipWith_of_inRange h
  · have hc : ¬i.InRange c.length := by
      rintro ⟨hl, hu⟩
      have hle := length_le_zipLength c r.broadcast
      exact h ⟨hl, by omega⟩
    rw [slotAt_zipWith_of_not_inRange h, slotAt_of_not_inRange hc, hf]

theorem mapM_ok (g : α → β) (c : Column α) :
    c.mapM (Nullable.mapM fun a => (.ok (g a) : Except Fault β)) = .ok (c.map (Nullable.map g)) := by
  rw [mapM_eq_tabulate, tabulate_eq_ok_iff]
  refine ⟨length_map _ c, fun i hi => ?_⟩
  rw [slot_map hi]
  cases c.slot i <;> rfl

theorem slotAt_of_mapM {f : α → Except Fault β} {c : Column α} {d : Column β}
    (h : c.mapM (Nullable.mapM f) = .ok d) (i : SlotIndex) :
    (c.slotAt i).mapM f = .ok (d.slotAt i) := by
  unfold slotAt
  cases i.position? with
  | none => rfl
  | some n => exact slot_of_mapM h n

end Column

/-- A single slot in an operation, by itself or through a handle. -/
def Nullable.term (s : Nullable α) : Term α := .operand (.nullable s)

def Handle.term (h : Handle α) (p : Passing) : Term α := .operand (.handle h p)

variable {t : ElementType}

section Methods

variable {m : Method}

theorem showsAt_truths {f : Nullable t.Value → Nullable t.Value → Nullable Bool}
    (hf : ∀ s, f .null s = .null) (c : Column t.Value) (r : Term t.Value) (i : SlotIndex) :
    (Answer.truths (.column (c.zipWith f r.broadcast)) : Answer t).ShowsAt i
      (.truths (.nullable (f (c.slotAt i) (r.slotAt i)))) := by
  rw [← Column.slotAt_zipWith hf]
  exact .truths _

theorem showsAt_elements {f : Nullable t.Value → Nullable t.Value → Nullable t.Value}
    (hf : ∀ s, f .null s = .null) (c : Column t.Value) (r : Term t.Value) (i : SlotIndex) :
    (Answer.elements (.column (c.zipWith f r.broadcast)) : Answer t).ShowsAt i
      (.elements (.nullable (f (c.slotAt i) (r.slotAt i)))) := by
  rw [← Column.slotAt_zipWith hf]
  exact .elements _

theorem call?_propagating (hm : m.IsPropagating) (ht : m.SuitedTo t) (c : Column t.Value)
    (p : Passing) (r : Term t.Value) (i : SlotIndex) :
    ∃ answer shown, m.call? (c.term p) r = some ⟨.ok answer, c.paddingLog r.broadcast⟩ ∧
      answer.ShowsAt i shown ∧ m.call? (c.slotAt i).term (r.slotAt i).term = some (.ok shown) := by
  cases m with
  | equal | notEqual => exact hm.elim
  | compare o =>
    obtain ⟨f, hf⟩ := Option.isSome_iff_exists.mp ((ElementType.compare?_isSome_iff o).mpr ht)
    refine ⟨_, _, ?_, showsAt_truths (f := Nullable.zipWith f) (fun _ => rfl) c r i, ?_⟩
    · simp [Column.term, Method.call?, Method.onColumn?, hf]
    · simp [Nullable.term, Method.call?, Method.onSlot?, hf, Term.slot?]
  | connect o =>
    obtain ⟨f, hf⟩ := Option.isSome_iff_exists.mp ((ElementType.connect?_isSome_iff o).mpr ht)
    refine ⟨_, _, ?_, showsAt_truths (f := Nullable.zipWith f) (fun _ => rfl) c r i, ?_⟩
    · simp [Column.term, Method.call?, Method.onColumn?, hf]
    · simp [Nullable.term, Method.call?, Method.onSlot?, hf, Term.slot?]
  | checked op =>
    obtain ⟨f, hf⟩ := Option.isSome_iff_exists.mp ((ElementType.checked?_isSome_iff op).mpr ht)
    refine ⟨_, _, ?_, showsAt_elements (f := Nullable.zipWithOption f) (fun _ => rfl) c r i, ?_⟩
    · simp [Column.term, Method.call?, Method.onColumn?, hf]
    · simp [Nullable.term, Method.call?, Method.onSlot?, hf, Term.slot?]

theorem Method.IsChecked.isPropagating (h : m.IsChecked) : m.IsPropagating := by
  cases m with
  | equal | notEqual => exact h
  | compare | connect | checked => trivial

/-- Equality and inequality ask one question of every pair of slots, padding included. -/
theorem exists_of_not_propagating (hm : ¬m.IsPropagating) :
    ∃ f : Nullable t.Value → Nullable t.Value → Bool,
      (∀ (c : Column t.Value) p r, Operation.run? (.method m (c.term p) r) =
        some ⟨.ok (.truths (.column (c.compareSlots f r.broadcast))), c.paddingLog r.broadcast⟩) ∧
      ∀ s u : Nullable t.Value, m.call? s.term u.term = some (.ok (.truth (f s u))) := by
  cases m with
  | equal => exact ⟨Nullable.equal t.beq, run?_equal, fun _ _ => rfl⟩
  | notEqual => exact ⟨Nullable.notEqual t.beq, run?_notEqual, fun _ _ => rfl⟩
  | compare | connect | checked => exact absurd trivial hm

theorem call?_handle (hm : ¬m.IsChecked) (h : Handle t.Value) (p : Passing) (s : Nullable t.Value) :
    m.call? (h.term p) s.term = m.call? h.get.term s.term := by
  cases m with
  | checked op => exact absurd trivial hm
  | equal | notEqual | compare | connect => rfl

end Methods

section Unary

variable {f : α → Except Fault β} {c : Column α} {x : Computed β}

theorem apply_column {p : Passing} (h : (Operand.column c p).apply f = .ok x) (i : SlotIndex) :
    ∃ d, x = .column d ∧ (Operand.nullable (c.slotAt i)).apply f = .ok (.nullable (d.slotAt i)) := by
  cases hd : c.mapM (Nullable.mapM f) with
  | error fault =>
    rw [Operand.apply, hd] at h
    cases h
  | ok d =>
    rw [Operand.apply, hd] at h
    cases h
    refine ⟨d, rfl, ?_⟩
    rw [Operand.apply, Column.slotAt_of_mapM hd i]
    rfl

theorem run?_unary {op : UnaryOperator} {f : t.Value → Except Fault t.Value}
    (known : t.unary? op = some f) (o : Operand t.Value) :
    Operation.run? (.unary op (.operand o)) = some (.ofExcept (.elements <$> o.apply f)) := by
  rw [Operation.run?, known]
  rfl

theorem run?_logicalNot {truthy : t.Value → Bool} (known : t.truthy? = some truthy)
    (o : Operand t.Value) : Operation.run? (.logicalNot (.operand o)) =
      some (.ofExcept (.truths <$> o.apply fun a => .ok (!truthy a))) := by
  rw [Operation.run?, known]
  rfl

theorem run?_unary_column {op : UnaryOperator} {f : t.Value → Except Fault t.Value}
    (known : t.unary? op = some f) (c : Column t.Value) (p : Passing) :
    Operation.run? (.unary op (c.term p)) =
      some (.ofExcept ((fun d => .elements (.column d)) <$> c.mapM (Nullable.mapM f))) := by
  rw [Column.term, run?_unary known, Operand.apply, Functor.map_map]

theorem run?_logicalNot_column {truthy : t.Value → Bool} (known : t.truthy? = some truthy)
    (c : Column t.Value) (p : Passing) : Operation.run? (.logicalNot (c.term p)) =
      some (.ofExcept ((fun d => .truths (.column d)) <$>
        c.mapM (Nullable.mapM fun x => (.ok (!truthy x) : Except Fault Bool)))) := by
  rw [Column.term, run?_logicalNot known, Operand.apply, Functor.map_map]

end Unary

/-- A method that propagates emptiness gives at every index of its result, in range or not, what it gives
on the slots at that index, as nullables or, where handles have it, through the handle. So does a unary
operator that has no fault on the column. Equality of two single slots always has an answer; the column
of answers shows it exactly at the indices in its range, and is empty elsewhere. -/
theorem slot_of_result (c : Column t.Value) (i : SlotIndex) (p q : Passing) :
    (∀ m : Method, m.IsPropagating → m.SuitedTo t → ∀ r : Term t.Value, ∃ answer shown,
      Operation.run? (.method m (c.term p) r) = some ⟨.ok answer, c.paddingLog r.broadcast⟩ ∧
      answer.ShowsAt i shown ∧
      Operation.run? (.method m (c.slotAt i).term (r.slotAt i).term) = some (.ok shown) ∧
      (¬m.IsChecked →
        Operation.run? (.method m ((c.handle i).term q) (r.slotAt i).term) = some (.ok shown))) ∧
    (∀ op f, t.unary? op = some f → ∃ x, Operation.run? (.unary op (c.term p)) = some x ∧
      ∀ answer, x.result = .ok answer → ∃ shown, answer.ShowsAt i shown ∧
        Operation.run? (.unary op (c.slotAt i).term) = some (.ok shown) ∧
        Operation.run? (.unary op ((c.handle i).term q)) = some (.ok shown)) ∧
    (∀ truthy, t.truthy? = some truthy → ∃ answer shown,
      Operation.run? (.logicalNot (c.term p)) = some (.ok answer) ∧ answer.ShowsAt i shown ∧
      Operation.run? (.logicalNot (c.slotAt i).term) = some (.ok shown) ∧
      Operation.run? (.logicalNot ((c.handle i).term q)) = some (.ok shown)) ∧
    ∀ m : Method, ¬m.IsPropagating → ∀ r : Term t.Value, ∃ (d : Column Bool) (b : Bool),
      Operation.run? (.method m (c.term p) r) =
        some ⟨.ok (.truths (.column d)), c.paddingLog r.broadcast⟩ ∧
      Operation.run? (.method m (c.slotAt i).term (r.slotAt i).term) = some (.ok (.truth b)) ∧
      Operation.run? (.method m ((c.handle i).term q) (r.slotAt i).term) = some (.ok (.truth b)) ∧
      (i.InRange d.length → d.slotAt i = .value b) ∧ (¬i.InRange d.length → d.slotAt i = .null) := by
  refine ⟨?_, ?_, ?_, ?_⟩
  · intro m hm ht r
    obtain ⟨answer, shown, ha, hs, hslot⟩ := call?_propagating hm ht c p r i
    refine ⟨answer, shown, ha, hs, hslot, fun hchecked => ?_⟩
    exact (call?_handle hchecked (c.handle i) q (r.slotAt i)).trans hslot
  · intro op f known
    refine ⟨_, run?_unary known _, fun answer h => ?_⟩
    cases hx : (Operand.column c p).apply f with
    | error fault =>
      rw [hx] at h
      cases h
    | ok x =>
      rw [hx] at h
      cases h
      obtain ⟨d, rfl, hslot⟩ := apply_column hx i
      have hrun : Operation.run? (.unary op (c.slotAt i).term) =
          some (.ok (.elements (.nullable (d.slotAt i)))) := by
        rw [Nullable.term, run?_unary known, hslot]
        rfl
      exact ⟨_, .elements d, hrun, hrun⟩
  · intro truthy known
    have hc : (Operand.column c p).apply (fun a => .ok (!truthy a)) =
        .ok (.column (c.map (Nullable.map fun a => !truthy a))) := by
      rw [Operand.apply, Column.mapM_ok]
      rfl
    obtain ⟨d, hd, hslot⟩ := apply_column hc i
    have hrun : Operation.run? (.logicalNot (c.slotAt i).term) =
        some (.ok (.truths (.nullable (d.slotAt i)) : Answer t)) := by
      rw [Nullable.term, run?_logicalNot known, hslot]
      rfl
    refine ⟨.truths (.column d), _, ?_, .truths d, hrun, hrun⟩
    rw [Column.term, run?_logicalNot known, hc, hd]
    rfl
  · intro m hm r
    obtain ⟨f, hcolumn, hslots⟩ := exists_of_not_propagating (t := t) hm
    have hslot := hslots (c.slotAt i) (r.slotAt i)
    have hhandle := call?_handle (fun h => hm h.isPropagating) (c.handle i) q (r.slotAt i)
    refine ⟨_, _, hcolumn c p r, hslot, hhandle.trans hslot, fun hi => ?_,
      Column.slotAt_of_not_inRange⟩
    rw [Column.compareSlots, Column.length_zipWith] at hi
    exact Column.slotAt_zipWith_of_inRange hi

end ColumnAlgebra
