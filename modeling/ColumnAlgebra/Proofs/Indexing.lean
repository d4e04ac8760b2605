import ColumnAlgebra.Proofs.HandleRun
import ColumnAlgebra.Proofs.History

/-!
# Indices in range

Reading, looking up, writing and handles each test an index on their own. All of them follow one
notion: the index is in range if its integer is a position below the length, whatever the kind of the
integer. Main statement: what each access answers at an index in range, and at one that is not.
-/

namespace ColumnAlgebra
set_option autoImplicit false

variable {α : Type}

namespace SlotIndex

/-- The integer of the index is a position of a column of this length. -/
def InRange (i : SlotIndex) (length : Nat) : Prop := 0 ≤ i.toInt ∧ i.toInt < length

variable {i : SlotIndex}

theorem inRange_iff {length : Nat} : i.InRange length ↔ ∃ n < length, i.position? = some n := by
  constructor
  · rintro ⟨hl, hu⟩
    exact ⟨i.toInt.toNat, by omega, position?_eq_some.mpr (by omega)⟩
  · rintro ⟨n, hn, hi⟩
    have hi := position?_eq_some.mp hi
    exact ⟨by omega, by omega⟩

theorem display_eq (i : SlotIndex) : i.display = toString i.toInt := by
  unfold display Decimal.ofInt
  cases i.toInt with
  | ofNat n => rfl
  | negSucc n =>
    apply String.ext
    simp [toString, Int.repr, Nat.repr]

end SlotIndex

namespace Column

variable {c : Column α} {i : SlotIndex} {s : Nullable α}

theorem slotAt?_eq_some_iff :
    c.slotAt? i = some s ↔ ∃ n : Nat, i.toInt = n ∧ c.slots[n]? = some s := by
  constructor
  · intro h
    obtain ⟨n, hn, hs⟩ := Option.bind_eq_some_iff.mp h
    exact ⟨n, SlotIndex.position?_eq_some.mp hn, hs⟩
  · rintro ⟨n, hn, hs⟩
    exact Option.bind_eq_some_iff.mpr ⟨n, SlotIndex.position?_eq_some.mpr hn, hs⟩

theorem slotAt?_isSome_iff : (c.slotAt? i).isSome ↔ i.InRange c.length := by
  rw [SlotIndex.inRange_iff, Option.isSome_iff_exists]
  constructor
  · rintro ⟨s, h⟩
    obtain ⟨n, hi, hs⟩ := slotAt?_eq_some_iff.mp h
    exact ⟨n, (List.getElem?_eq_some_iff.mp hs).1, SlotIndex.position?_eq_some.mpr hi⟩
  · rintro ⟨n, hn, hi⟩
    have hs : c.slots[n]? = some c.slots[n] := List.getElem?_eq_getElem hn
    exact ⟨_, slotAt?_eq_some_iff.mpr ⟨n, SlotIndex.position?_eq_some.mp hi, hs⟩⟩

theorem slotAt_eq_getD (c : Column α) (i : SlotIndex) : c.slotAt i = (c.slotAt? i).getD .null := by
  unfold slotAt slotAt?
  cases i.position? <;> rfl

theorem slotAt?_of_not_inRange (h : ¬i.InRange c.length) : c.slotAt? i = none := by
  rw [← Option.not_isSome_iff_eq_none, slotAt?_isSome_iff]
  exact h

theorem slotAt_of_not_inRange (h : ¬i.InRange c.length) : c.slotAt i = .null := by
  rw [slotAt_eq_getD, slotAt?_of_not_inRange h]
  rfl

theorem trySlotAt_of_some (h : c.slotAt? i = some s) : c.trySlotAt i = .ok s := by
  rw [trySlotAt, h]

theorem trySlotAt_of_none (h : c.slotAt? i = none) :
    c.trySlotAt i = .error (.indexError (toString i.toInt) c.length) := by
  rw [trySlotAt, h, SlotIndex.display_eq]

theorem front_eq_ok (h : c.slots[0]? = some s) : c.front = .ok s := by
  rw [front, List.head?_eq_getElem?, h]

theorem back_eq_ok (h : c.slots[c.length - 1]? = some s) : c.back = .ok s := by
  unfold length at h
  rw [back, List.getLast?_eq_getElem?, h]

end Column

theorem toOption_eq_some_iff {s : Nullable α} {a : α} : s.toOption = some a ↔ s = .value a := by
  cases s <;> simp [Nullable.toOption]

theorem tryValue_eq_ok_iff {s : Nullable α} {a : α} : s.tryValue = .ok a ↔ s = .value a := by
  cases s <;> simp [Nullable.tryValue]

/-- No access to the column tells the indices apart. -/
structure SameAccess (c : Column α) (i j : SlotIndex) : Prop where
  slotAt : c.slotAt i = c.slotAt j
  trySlotAt : c.trySlotAt i = c.trySlotAt j
  slotAt? : c.slotAt? i = c.slotAt? j
  handle : c.handle i = c.handle j
  set : ∀ s, (c.set i s : Outcome Fault _) = c.set j s
  reset : (c.reset i : Outcome Fault _) = c.reset j

theorem sameAccess (c : Column α) {i j : SlotIndex} (h : i.toInt = j.toInt) : SameAccess c i j := by
  have hp : i.position? = j.position? := congrArg Int.toNat? h
  have hd : i.display = j.display := congrArg (fun n => String.ofList (Decimal.ofInt n)) h
  have hf : c.slotAt? i = c.slotAt? j := by rw [Column.slotAt?, Column.slotAt?, hp]
  exact
    { slotAt := by rw [Column.slotAt, Column.slotAt, hp]
      trySlotAt := by rw [Column.trySlotAt, Column.trySlotAt, hf, hd]
      slotAt? := hf
      handle := by rw [Column.handle, Column.handle, hp]
      set := fun s => by rw [Column.set, Column.set, hp]
      reset := by rw [Column.reset, Column.reset, hp] }

/-- A write to a single slot, through a handle or not, is accepted exactly in range, and changes no
other slot. -/
theorem edit_at_index {e : Edit α} {i : SlotIndex} {s : Nullable α} (limit : Nat) (c : Column α)
    (he : e.indexed? = some (i, s)) :
    (i.InRange c.length → e.reply limit c = .ok (.flag true) ∧
      ∀ n : Nat, (e.after limit c).slot n = if i.toInt = n then s else c.slot n) ∧
    (¬i.InRange c.length → e.reply limit c = .ok (.flag false) ∧ e.after limit c = c) := by
  rcases Edit.indexed?_cases limit c he with ⟨n, hn, hi, ha, hr⟩ | ⟨hi, ha, hr⟩
  · have hint : i.toInt = n := SlotIndex.position?_eq_some.mp hi
    refine ⟨fun _ => ⟨hr, fun m => ?_⟩, fun hout => absurd ⟨by omega, by omega⟩ hout⟩
    have hm : m = n ↔ i.toInt = m := by omega
    simp only [ha, Column.slot_set_slots hn, hm]
  · refine ⟨fun hin => ?_, fun _ => ⟨hr, ha⟩⟩
    obtain ⟨n, hn, hp⟩ := SlotIndex.inRange_iff.mp hin
    exact absurd (hi n hp) (Nat.not_le.mpr hn)

/-- At an index in range every access finds the slot at its integer, and writes are accepted. Elsewhere
a slot read is empty, a lookup finds nothing, the error names the integer and the length, and writes are
refused and leave the column as it was. A handle keeps every index that is not negative, and shows the
slot that is read at the index. Indices that stand for the same integer are not told apart, and the
first and the last slot are those at the ends of the range. -/
theorem access_at_index (c : Column α) (i : SlotIndex) :
    (i.InRange c.length →
      (∃ (n : Nat) (s : Nullable α), i.toInt = n ∧ c.slots[n]? = some s ∧
        c.slotAt i = s ∧ c.trySlotAt i = .ok s ∧ c.slotAt? i = some s) ∧
      ∀ limit (e : Edit α) s, e.indexed? = some (i, s) → e.reply limit c = .ok (.flag true) ∧
        ∀ n : Nat, (e.after limit c).slot n = if i.toInt = n then s else c.slot n) ∧
    (¬i.InRange c.length →
      (c.slotAt i = .null ∧ c.trySlotAt i = .error (.indexError (toString i.toInt) c.length) ∧
        c.slotAt? i = none) ∧
      ∀ limit (e : Edit α) s, e.indexed? = some (i, s) → e.reply limit c = .ok (.flag false) ∧
        e.after limit c = c) ∧
    (∀ n : Nat, (c.handle i).position = some n ↔ i.toInt = n) ∧
    (c.handle i).get = c.slotAt i ∧
    (c.handle i).value = (c.slotAt i).toOption ∧
    (∀ a, (c.handle i).value = some a ↔ c.slotAt i = .value a) ∧
    (∀ a, (c.handle i).tryValue = .ok a ↔ c.slotAt i = .value a) ∧
    (c.handle i).hasValue = (c.slotAt i).hasValue ∧
    (∀ j : SlotIndex, j.toInt = i.toInt → SameAccess c i j) ∧
    (c.length = 0 → c.front = .error .emptyColumn ∧ c.back = .error .emptyColumn) ∧
    (0 < c.length → (i.toInt = 0 → c.front = c.trySlotAt i) ∧
      (i.toInt = c.length - 1 → c.back = c.trySlotAt i)) := by
  have found (h : i.InRange c.length) : ∃ (n : Nat) (s : Nullable α), i.toInt = n ∧
      c.slots[n]? = some s ∧ c.slotAt? i = some s := by
    obtain ⟨s, hs⟩ := Option.isSome_iff_exists.mp (Column.slotAt?_isSome_iff.mpr h)
    obtain ⟨n, hn, hslot⟩ := Column.slotAt?_eq_some_iff.mp hs
    exact ⟨n, s, hn, hslot, hs⟩
  refine ⟨fun h => ⟨?_, fun limit e s he => (edit_at_index limit c he).1 h⟩,
    fun h => ⟨?_, fun limit e s he => (edit_at_index limit c he).2 h⟩,
    fun n => SlotIndex.position?_eq_some, rfl, rfl, fun a => toOption_eq_some_iff,
    fun a => tryValue_eq_ok_iff, hasValue_handle c i, fun j hj => sameAccess c hj.symm, ?_, ?_⟩
  · obtain ⟨n, s, hn, hslot, hs⟩ := found h
    refine ⟨n, s, hn, hslot, ?_, Column.trySlotAt_of_some hs, hs⟩
    rw [Column.slotAt_eq_getD, hs]
    rfl
  · have hnone : c.slotAt? i = none := Column.slotAt?_of_not_inRange h
    exact ⟨Column.slotAt_of_not_inRange h, Column.trySlotAt_of_none hnone, hnone⟩
  · intro h
    have hnil : c.slots = [] := List.eq_nil_of_length_eq_zero h
    exact ⟨by rw [Column.front, hnil]; rfl, by rw [Column.back, hnil]; rfl⟩
  · intro hpos
    constructor
    · intro hi
      obtain ⟨n, s, hn, hslot, hs⟩ := found ⟨by omega, by omega⟩
      obtain rfl : n = 0 := by omega
      rw [Column.trySlotAt_of_some hs, Column.front_eq_ok hslot]
    · intro hi
      obtain ⟨n, s, hn, hslot, hs⟩ := found ⟨by omega, by omega⟩
      obtain rfl : n = c.length - 1 := by omega
      rw [Column.trySlotAt_of_some hs, Column.back_eq_ok hslot]

end ColumnAlgebra
