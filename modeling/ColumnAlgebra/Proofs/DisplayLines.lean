import ColumnAlgebra.Proofs.Flattening
import ColumnAlgebra.Proofs.Indexing

/-!
# What the display text of a column shows

A column is displayed with a line for each of its slots. If no text of a value has a line break in it,
the text of the column comes apart at its line breaks into the texts of the slots; if besides no two
values share a text and none is shown as the null token, the slots can be read off their lines. Integers
and truth values have such texts. Main statement: so the text tells columns of them apart just as
equality does, while of nested elements it tells apart what is left when their two levels are flattened.
-/

namespace ColumnAlgebra
set_option autoImplicit false

open Nullable (nullToken)

variable {α : Type}

/-- What stands before, between and after the line breaks of a text. -/
def pieces (text : String) : List String := (text.toList.splitOn '\n').map String.ofList

/-- Values have texts of one line, which tell them apart from each other and from an empty slot. -/
structure Legible (text : α → String) : Prop where
  oneLine : ∀ a, '\n' ∉ (text a).toList
  injective : ∀ {a b}, text a = text b → a = b
  ne_null : ∀ a, text a ≠ nullToken

namespace Legible

variable {text : α → String} (h : Legible text)
include h

theorem slot_oneLine (s : Nullable α) : '\n' ∉ (s.display text).toList := by
  cases s with
  | null =>
    have hnull : '\n' ∉ nullToken.toList := by decide
    exact hnull
  | value a => exact h.oneLine a

theorem slot_eq_null_iff {s : Nullable α} : s.display text = nullToken ↔ s = .null := by
  cases s with
  | null => exact iff_of_true rfl rfl
  | value a => exact iff_of_false (h.ne_null a) nofun

theorem slot_injective {s r : Nullable α} (hsr : s.display text = r.display text) : s = r := by
  cases s with
  | null => exact (h.slot_eq_null_iff.mp hsr.symm).symm
  | value a =>
    cases r with
    | null => exact absurd hsr (h.ne_null a)
    | value b => exact congrArg Nullable.value (h.injective hsr)

end Legible

theorem splitOn_lines {ls : List (List Char)} (h : ∀ l ∈ ls, '\n' ∉ l) :
    (ls.flatMap (· ++ ['\n'])).splitOn '\n' = ls ++ [[]] := by
  induction ls with
  | nil => rfl
  | cons l ls ih =>
    have hrest := ih fun x hx => h x (List.mem_cons_of_mem l hx)
    rw [List.flatMap_cons, List.append_assoc, List.singleton_append,
      List.splitOn_append_cons_self_of_not_mem (h l List.mem_cons_self), hrest, List.cons_append]

theorem count_lines {ls : List (List Char)} (h : ∀ l ∈ ls, '\n' ∉ l) :
    (ls.flatMap (· ++ ['\n'])).count '\n' = ls.length := by
  induction ls with
  | nil => rfl
  | cons l ls ih =>
    have hrest := ih fun x hx => h x (List.mem_cons_of_mem l hx)
    have hl : l.count '\n' = 0 := List.count_eq_zero.mpr (h l List.mem_cons_self)
    rw [List.flatMap_cons, List.count_append, List.count_append, hl, hrest, List.length_cons]
    simp [Nat.add_comm]

namespace Column

variable {text : α → String} {a b : Column α}

def lines (text : α → String) (c : Column α) : List String := c.slots.map (·.display text)

theorem toList_display (text : α → String) (c : Column α) :
    (c.display text).toList = ((c.lines text).map String.toList).flatMap (· ++ ['\n']) := by
  rw [display, String.toList_join, lines, List.map_map, List.flatMap_map, List.flatMap_map]
  simp only [String.toList_append, Function.comp_apply]
  rfl

theorem oneLine_of_mem_lines (h : ∀ s : Nullable α, '\n' ∉ (s.display text).toList) (c : Column α) :
    ∀ l ∈ (c.lines text).map String.toList, '\n' ∉ l := by
  intro l hl
  obtain ⟨line, hline, rfl⟩ := List.mem_map.mp hl
  obtain ⟨s, -, rfl⟩ := List.mem_map.mp hline
  exact h s

theorem pieces_display (h : ∀ s : Nullable α, '\n' ∉ (s.display text).toList) (c : Column α) :
    pieces (c.display text) = c.lines text ++ [""] := by
  have hofList : String.ofList ∘ String.toList = id := funext fun l => String.ofList_toList
  rw [pieces, toList_display, splitOn_lines (oneLine_of_mem_lines h c), List.map_append, List.map_map,
    hofList, List.map_id]
  rfl

theorem count_display (h : ∀ s : Nullable α, '\n' ∉ (s.display text).toList) (c : Column α) :
    (c.display text).toList.count '\n' = c.length := by
  rw [toList_display, count_lines (oneLine_of_mem_lines h c), List.length_map, lines, List.length_map,
    length]

theorem getElem?_lines {n : Nat} (hn : n < a.length) :
    (a.lines text)[n]? = some ((a.slot n).display text) := by
  have hlt : n < a.slots.length := hn
  simp [lines, slot, hlt]

theorem display_handle_of_inRange {i : SlotIndex} {n : Nat} (hi : i.toInt = n) :
    (a.handle i).display text = (a.slot n).display text := by
  have hp : i.position? = some n := SlotIndex.position?_eq_some.mpr hi
  rw [Handle.display, get_handle, slotAt, hp]

theorem display_handle_of_not_inRange {i : SlotIndex} (hi : ¬i.InRange a.length) :
    (a.handle i).display text = nullToken := by
  rw [Handle.display, get_handle, slotAt_of_not_inRange hi]
  rfl

/-- A line for each slot, in order, and for each handle in range the line of its slot. -/
structure ShownByLines (text : α → String) (c : Column α) : Prop where
  breaks : (c.display text).toList.count '\n' = c.length
  lines : pieces (c.display text) = c.slots.map (·.display text) ++ [""]
  handle_inRange : ∀ (i : SlotIndex) (n : Nat), i.toInt = n → n < c.length →
    (pieces (c.display text))[n]? = some ((c.handle i).display text)
  handle_outside : ∀ i : SlotIndex, ¬i.InRange c.length → (c.handle i).display text = nullToken

theorem shownByLines (h : ∀ s : Nullable α, '\n' ∉ (s.display text).toList) (c : Column α) :
    c.ShownByLines text where
  breaks := count_display h c
  lines := pieces_display h c
  handle_inRange := by
    intro i n hi hn
    have hlt : n < (c.lines text).length := by
      rw [Column.lines, List.length_map]
      exact hn
    rw [pieces_display h, List.getElem?_append_left hlt, getElem?_lines hn, display_handle_of_inRange hi]
  handle_outside := fun i hi => display_handle_of_not_inRange hi

section Legible

variable (h : Legible text)
include h

theorem display_eq_iff : a.display text = b.display text ↔ a = b := by
  constructor
  · intro hab
    have hpieces := congrArg pieces hab
    rw [pieces_display h.slot_oneLine, pieces_display h.slot_oneLine] at hpieces
    have hlines : a.slots.map (·.display text) = b.slots.map (·.display text) :=
      List.append_cancel_right hpieces
    have hslots : a.slots = b.slots :=
      List.map_injective_iff.mpr (fun _ _ hsr => h.slot_injective hsr) hlines
    exact congrArg mk hslots
  · rintro rfl
    rfl

/-- The lines that are the null token are those of the empty slots. -/
theorem count_null_pieces (c : Column α) : (pieces (c.display text)).count nullToken = c.nullCount := by
  have hlast : [""].count nullToken = 0 := by decide
  rw [pieces_display h.slot_oneLine, List.count_append, hlast, Nat.add_zero, lines, List.count,
    List.countP_map, nullCount]
  apply List.countP_congr
  intro s _
  rw [Function.comp_apply, beq_iff_eq, h.slot_eq_null_iff]
  cases s <;> simp [Nullable.isNull]

end Legible

section Nested

variable {c d : Column (Nullable α)}

theorem display_flatten (text : α → String) (s : Nullable (Nullable α)) :
    s.display (Nullable.display text) = s.flatten.display text := by
  cases s with
  | null => rfl
  | value x => rfl

/-- An empty slot and an empty element have the same text. -/
theorem display_flat (text : α → String) (c : Column (Nullable α)) :
    c.display (Nullable.display text) = c.flat.display text := by
  rw [display, display, flat, map, List.map_map]
  simp only [display_flatten, Function.comp_def]

theorem flatten_eq_iff {s r : Nullable (Nullable α)} :
    s.flatten = r.flatten ↔ s = r ∨ s.EmptyApart r := by
  rcases s with _ | _ | x <;> rcases r with _ | _ | y <;>
    simp [Nullable.flatten, Nullable.valueOr, Nullable.EmptyApart]

theorem flat_eq_iff : c.flat = d.flat ↔ c.length = d.length ∧
    ∀ i, c.slot i = d.slot i ∨ (c.slot i).EmptyApart (d.slot i) := by
  constructor
  · intro h
    refine ⟨?_, fun i => ?_⟩
    · rw [← length_flat c, h, length_flat]
    · rw [← flatten_eq_iff, ← slot_flat, h, slot_flat]
  · rintro ⟨hl, hs⟩
    apply ext_slot
    · rw [length_flat, length_flat, hl]
    · intro i _
      rw [slot_flat, slot_flat, flatten_eq_iff]
      exact hs i

end Nested

end Column

theorem isDigit_or_minus_of_mem_ofInt {n : Int} {c : Char} (hc : c ∈ Decimal.ofInt n) :
    c.isDigit = true ∨ c = '-' := by
  have hdigit (hmem : c ∈ Nat.toDigits 10 n.natAbs) : c.isDigit = true :=
    Nat.isDigit_of_mem_toDigits (by decide) (by decide) hmem
  unfold Decimal.ofInt at hc
  split at hc
  · rcases List.mem_cons.mp hc with hminus | hmem
    · exact Or.inr hminus
    · exact Or.inl (hdigit hmem)
  · exact Or.inl (hdigit hc)

theorem legible_int (k : IntKind) : Legible (ElementType.displayInt (k := k)) where
  oneLine := by
    intro x hx
    rw [ElementType.displayInt, String.toList_ofList] at hx
    rcases isDigit_or_minus_of_mem_ofInt hx with hdigit | hminus
    · exact absurd hdigit (by decide)
    · exact absurd hminus (by decide)
  injective := by
    intro x y hxy
    have hdecimal : Decimal.ofInt x.toInt = Decimal.ofInt y.toInt := String.ofList_injective hxy
    have hread := congrArg Decimal.toInt? hdecimal
    rw [Decimal.toInt?_ofInt, Decimal.toInt?_ofInt] at hread
    exact FixedInt.toInt_injective (Option.some.inj hread)
  ne_null := by
    intro x hx
    have hdecimal : Decimal.ofInt x.toInt = nullToken.toList := by
      rw [← hx, ElementType.displayInt, String.toList_ofList]
    have hread := congrArg Decimal.toInt? hdecimal
    have hnone : Decimal.toInt? nullToken.toList = none := by decide
    rw [Decimal.toInt?_ofInt, hnone] at hread
    cases hread

theorem legible_bool : Legible (ElementType.display .bool) where
  oneLine := by
    intro (x : Bool)
    cases x <;> decide
  injective := by
    have hall : ∀ x y : Bool, ElementType.display .bool x = ElementType.display .bool y → x = y := by
      unfold ElementType.display
      decide
    exact fun {x y} => hall x y
  ne_null := by
    intro (x : Bool)
    cases x <;> decide

open Column

/-- The display text of a column of integers or truth values is a line for each slot, and each empty slot
one line that is the null token; so two columns have the same text exactly if they are equal. The text of
nested elements is that of the flattened column, so there it is the columns without the difference of
an empty slot and an empty element that have to be equal, and no other difference is lost. A handle shows
the line of its slot, and the null token where there is none. -/
theorem display_determines_column :
    (∀ t : ElementType, (t = .bool ∨ ∃ k, t = .int k) → ∀ a b : Column t.Value,
      (a.display t.display = b.display t.display ↔ a.equalTo t.beq b = true) ∧
      a.ShownByLines t.display ∧ (pieces (a.display t.display)).count nullToken = a.nullCount) ∧
    ∀ a b : Column (ElementType.Value .nested),
      let text := ElementType.display .nested
      (a.display text = b.display text ↔
        (flat a).equalTo (ElementType.beq (.int .i32)) (flat b) = true) ∧
      (a.display text = b.display text ↔ a.length = b.length ∧
        ∀ i, a.slot i = b.slot i ∨ Nullable.EmptyApart (a.slot i) (b.slot i)) ∧
      a.ShownByLines text ∧ (pieces (a.display text)).count nullToken = (flat a).nullCount := by
  constructor
  · intro t ht a b
    have hexact : ∀ k, t ≠ .float k := by
      rintro k rfl
      rcases ht with h | ⟨k', h⟩ <;> cases h
    have hlegible : Legible t.display := by
      rcases ht with rfl | ⟨k, rfl⟩
      · exact legible_bool
      · exact legible_int k
    rw [display_eq_iff hlegible, equalTo_eq_true_iff_eq (t.beq_eq_true_iff hexact)]
    exact ⟨Iff.rfl, shownByLines hlegible.slot_oneLine a, count_null_pieces hlegible a⟩
  · intro a b text
    have hint := legible_int .i32
    have hflat (c : Column (Nullable (FixedInt .i32))) :
        c.display text = c.flat.display ElementType.displayInt := display_flat _ c
    have htexts : a.display text = b.display text ↔ flat a = flat b := by
      rw [hflat a, hflat b, display_eq_iff hint]
    have hslots (s : NestedSlot) : '\n' ∉ (s.display text).toList := by
      have htext : s.display text = s.flatten.display ElementType.displayInt := display_flatten _ s
      rw [htext]
      exact hint.slot_oneLine s.flatten
    refine ⟨?_, htexts.trans flat_eq_iff, shownByLines hslots a, ?_⟩
    · rw [htexts]
      exact (equalTo_eq_true_iff_eq (ElementType.beq_eq_true_iff (t := .int .i32) nofun)).symm
    · rw [hflat a]
      exact count_null_pieces hint (flat a)

/-- An empty slot and an empty element are shown alike. -/
example :
    (⟨[.null, .value .null]⟩ : Column (Nullable (FixedInt .i32))).display (ElementType.display .nested) =
      "Null\nNull\n" := by
  decide

end ColumnAlgebra
