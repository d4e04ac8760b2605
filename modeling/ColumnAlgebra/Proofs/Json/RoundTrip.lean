import ColumnAlgebra.Json.Element
import ColumnAlgebra.Proofs.Json.StringLiteral

/-!
# Reading back written JSON

A writer and a reader agree if the reader takes the written value off the front of any text that does
not go on with a digit, and what is written does not start with white space. The agreement passes from
values to the slots that hold them, and so to the nested type; from slots it passes to columns by
induction over their slots. Main result: every column and every slot of an exact element type is read
back from its text.
-/

namespace ColumnAlgebra
set_option autoImplicit false

namespace Json

/-- No digit stands at the front of the text, so that a number before it ends there. -/
def NumberEnds (cs : List Char) : Prop := cs.takeWhile Char.isDigit = []

theorem takeWhile_append_stop {p : Char → Bool} {xs ys : List Char} (hxs : ∀ x ∈ xs, p x = true)
    (hys : ys.takeWhile p = []) :
    (xs ++ ys).takeWhile p = xs ∧ (xs ++ ys).dropWhile p = ys := by
  have happ : ys.takeWhile p ++ ys.dropWhile p = ys := List.takeWhile_append_dropWhile
  rw [hys, List.nil_append] at happ
  constructor
  · rw [List.takeWhile_append_of_pos hxs, hys, List.append_nil]
  · rw [List.dropWhile_append_of_pos hxs, happ]

/-- Digits are taken off the front as far as they go. -/
theorem digits_append {ds cs : List Char} (hdigit : ∀ d ∈ ds, d.isDigit = true) (hne : ds ≠ [])
    (hleading : ds.head? = some '0' → ds = ['0']) (hcs : NumberEnds cs) :
    digits (ds ++ cs) = some (ds, cs) := by
  obtain ⟨htake, hdrop⟩ := takeWhile_append_stop hdigit hcs
  unfold digits
  rw [htake, hdrop]
  cases ds with
  | nil => exact absurd rfl hne
  | cons d ds =>
    have hzero : ¬ (d = '0' ∧ ds ≠ []) := by
      rintro ⟨rfl, hds⟩
      exact hds (List.cons.inj (hleading rfl)).2
    exact if_neg hzero

theorem digits_toDigits (n : Nat) {cs : List Char} (hcs : NumberEnds cs) :
    digits (Nat.toDigits 10 n ++ cs) = some (Nat.toDigits 10 n, cs) := by
  obtain ⟨d, ds, hds, -⟩ := Decimal.exists_toDigits_eq_cons n
  apply digits_append
  · intro c hc
    exact Nat.isDigit_of_mem_toDigits (by decide) (by decide) hc
  · simp [hds]
  · rw [hds]
    intro hhead
    obtain rfl : d = '0' := by simpa using hhead
    rw [Decimal.eq_nil_of_toDigits_eq_cons_zero hds]
  · exact hcs

theorem minus_ofInt (n : Int) (cs : List Char) :
    minus (Decimal.ofInt n ++ cs) = (decide (n < 0), Nat.toDigits 10 n.natAbs ++ cs) := by
  unfold Decimal.ofInt
  split
  · rename_i hn
    simp [minus, hn]
  · rename_i hn
    obtain ⟨d, ds, hds, hd⟩ := Decimal.exists_toDigits_eq_cons n.natAbs
    rw [hds, List.cons_append]
    unfold minus
    split
    · rename_i heq
      exact absurd (List.cons.inj heq).1 (Decimal.ne_minus_of_isDigit hd)
    · simp [hn]

theorem readInt_writeInt {k : IntKind} (x : FixedInt k) {cs : List Char} (hcs : NumberEnds cs) :
    readInt k (writeInt x ++ cs) = some (x, cs) := by
  have hdigits := digits_toDigits x.toInt.natAbs hcs
  have hval : Nat.ofDigitChars 10 (Nat.toDigits 10 x.toInt.natAbs) 0 = x.toInt.natAbs :=
    Nat.ofDigitChars_ten_toDigits
  have hzero : ¬ (decide (x.toInt < 0) = true ∧ x.toInt.natAbs = 0 ∧ k ≠ ⟨true, .w128⟩) := by
    rw [decide_eq_true_eq]
    omega
  have hsign : (if decide (x.toInt < 0) = true then -(x.toInt.natAbs : Int) else x.toInt.natAbs)
      = x.toInt := by
    by_cases hx : x.toInt < 0
    · simp only [hx, decide_true, if_true]
      omega
    · simp only [hx, decide_false, Bool.false_eq_true, if_false]
      omega
  simp only [readInt, writeInt, minus_ofInt, hdigits, Option.bind_eq_bind, Option.bind_some, hval,
    if_neg hzero, hsign, FixedInt.ofInt?_toInt]
  rfl

/-- The reader takes a written value off the front of a text and leaves the text. -/
structure ReadsBack {α : Type} (write : α → List Char) (read : Reader α) : Prop where
  starts : ∀ a cs, skipSpace (write a ++ cs) = write a ++ cs
  reads : ∀ a cs, NumberEnds cs → read (write a ++ cs) = some (a, cs)

theorem skipSpace_of_not_isSpace {c : Char} (hc : isSpace c = false) (cs : List Char) :
    skipSpace (c :: cs) = c :: cs := by
  simp [skipSpace, hc]

theorem mark_of_not_isSpace {c : Char} (hc : isSpace c = false) (cs : List Char) :
    mark c (c :: cs) = some ((), cs) := by
  rw [mark, skipSpace_of_not_isSpace hc]
  exact word_append [c] cs

theorem isSpace_of_isDigit {c : Char} (hc : c.isDigit = true) : isSpace c = false := by
  cases hs : isSpace c with
  | false => rfl
  | true =>
    simp only [isSpace, Bool.or_eq_true, decide_eq_true_eq] at hs
    rcases hs with ((rfl | rfl) | rfl) | rfl <;> exact absurd hc (by decide)

theorem readsBack_int (k : IntKind) : ReadsBack (writeInt (k := k)) (readInt k) where
  starts := by
    intro x cs
    unfold writeInt Decimal.ofInt
    split
    · exact skipSpace_of_not_isSpace (by decide) _
    · obtain ⟨d, ds, hds, hd⟩ := Decimal.exists_toDigits_eq_cons x.toInt.natAbs
      rw [hds]
      exact skipSpace_of_not_isSpace (isSpace_of_isDigit hd) _
  reads := by
    intro x cs hcs
    exact readInt_writeInt x hcs

theorem readsBack_bool : ReadsBack (ElementType.writeJson .bool) readBool where
  starts := by
    intro (x : Bool) cs
    cases x <;> rfl
  reads := by
    intro (x : Bool) cs _
    cases x <;> rfl

theorem readsBack_text : ReadsBack writeString readString where
  starts := by
    intro s cs
    exact skipSpace_of_not_isSpace (by decide) _
  reads := by
    intro s cs _
    exact readString_writeString s cs

theorem readsBack_char : ReadsBack (fun c => writeString (String.singleton c)) readChar where
  starts := by
    intro c cs
    exact readsBack_text.starts (String.singleton c) cs
  reads := by
    intro c cs _
    simp only [readChar, readString_writeString, String.toList_singleton, Option.bind_eq_bind,
      Option.bind_some]
    rfl

section Slot

variable {α : Type} {write : α → List Char} {read : Reader α}

theorem member_value (h : ReadsBack write read) (a : α) (cs : List Char) :
    member read ("\"Value\":".toList ++ write a ++ '\x7d' :: cs) = some (.value a, '\x7d' :: cs) := by
  have hkey : "\"Value\":".toList ++ write a ++ '\x7d' :: cs
      = writeString "Value" ++ ':' :: (write a ++ '\x7d' :: cs) := by
    rw [List.append_assoc]
    rfl
  have hread : read (write a ++ '\x7d' :: cs) = some (a, '\x7d' :: cs) := h.reads a _ rfl
  rw [hkey]
  simp only [member, readsBack_text.starts, readString_writeString, Option.bind_eq_bind,
    Option.bind_some, mark_of_not_isSpace (c := ':') (by decide), h.starts, hread]
  rfl

theorem readSlot_writeSlot (h : ReadsBack write read) (s : Nullable α) (cs : List Char) :
    readSlot read (writeSlot write s ++ cs) = some (s, cs) := by
  cases s with
  | null =>
    have hnull : writeSlot write .null ++ cs = writeString "Null" ++ cs := rfl
    rw [hnull]
    unfold readSlot
    rw [readsBack_text.starts]
    split
    · rename_i heq
      exact absurd (List.cons.inj heq).1 (by decide)
    · simp only [readString_writeString, Option.bind_eq_bind, Option.bind_some]
      rfl
  | value a =>
    have hvalue : writeSlot write (.value a) ++ cs
        = '\x7b' :: ("\"Value\":".toList ++ write a ++ '\x7d' :: cs) := by
      simp only [writeSlot, List.append_assoc, List.cons_append, List.nil_append]
    rw [hvalue]
    unfold readSlot
    rw [skipSpace_of_not_isSpace (by decide)]
    simp only [member_value h, Option.bind_eq_bind, Option.bind_some,
      mark_of_not_isSpace (c := '\x7d') (by decide)]
    rfl

theorem readsBack_slot (h : ReadsBack write read) :
    ReadsBack (writeSlot write) (readSlot read) where
  starts := by
    intro s cs
    cases s with
    | null => exact skipSpace_of_not_isSpace (by decide) _
    | value a => exact skipSpace_of_not_isSpace (by decide) _
  reads := by
    intro s cs _
    exact readSlot_writeSlot h s cs

theorem readSlots_writeSlots (h : ReadsBack write read) (s : Nullable α) (slots : List (Nullable α))
    (cs : List Char) :
    readSlots read (writeSlots write (s :: slots) ++ ']' :: cs) = some (s :: slots, cs) := by
  induction slots generalizing s with
  | nil =>
    rw [readSlots.eq_def]
    simp only [writeSlots, readSlot_writeSlot h, skipSpace_of_not_isSpace (c := ']') (by decide)]
  | cons t slots ih =>
    have htext : writeSlots write (s :: t :: slots) ++ ']' :: cs
        = writeSlot write s ++ ',' :: (writeSlots write (t :: slots) ++ ']' :: cs) := by
      simp only [writeSlots, List.append_assoc, List.cons_append]
    have hlen : (writeSlots write (t :: slots) ++ ']' :: cs).length
        < (writeSlot write s ++ ',' :: (writeSlots write (t :: slots) ++ ']' :: cs)).length := by
      simp only [List.length_append, List.length_cons]
      omega
    rw [htext, readSlots.eq_def]
    simp only [readSlot_writeSlot h, skipSpace_of_not_isSpace (c := ',') (by decide), if_pos hlen, ih,
      Option.map_some]

theorem skipSpace_writeSlots_ne_bracket (s : Nullable α) (slots : List (Nullable α))
    (cs rest : List Char) : skipSpace (writeSlots write (s :: slots) ++ cs) ≠ ']' :: rest := by
  have hslot : ∀ tail, skipSpace (writeSlot write s ++ tail) ≠ ']' :: rest := by
    intro tail heq
    cases s with
    | null => exact absurd (List.cons.inj heq).1 (by decide)
    | value a => exact absurd (List.cons.inj heq).1 (by decide)
  cases slots with
  | nil => exact hslot cs
  | cons t slots =>
    simp only [writeSlots, List.append_assoc]
    exact hslot _

theorem readsBack_column (h : ReadsBack write read) :
    ReadsBack (writeColumn write) (readColumn read) where
  starts := by
    intro c cs
    exact skipSpace_of_not_isSpace (by decide) _
  reads := by
    intro c cs _
    rcases c with ⟨slots⟩
    have htext : writeColumn write ⟨slots⟩ ++ cs = '[' :: (writeSlots write slots ++ ']' :: cs) := by
      simp only [writeColumn, List.append_assoc, List.cons_append, List.nil_append]
    rw [htext]
    unfold readColumn
    rw [mark_of_not_isSpace (by decide)]
    cases slots with
    | nil => rfl
    | cons s slots =>
      simp only [Option.bind_eq_bind, Option.bind_some]
      split
      · exact absurd ‹_› (skipSpace_writeSlots_ne_bracket s slots _ _)
      · simp only [readSlots_writeSlots h, Option.bind_some]
        rfl

end Slot

theorem whole_write {α : Type} {write : α → List Char} {read : Reader α} (h : ReadsBack write read)
    (a : α) : whole read (String.ofList (write a)) = some a := by
  have hread : read (write a) = some (a, []) := by
    have happ := h.reads a [] rfl
    rwa [List.append_nil] at happ
  simp only [whole, String.toList_ofList, hread, skipSpace, List.dropWhile_nil, if_true]

theorem injective_of_read {α : Type} {write : α → String} {read : String → Option α}
    (h : ∀ a, read (write a) = some a) : Function.Injective write := by
  intro a b hab
  have hsome : some a = some b := by rw [← h a, ← h b, hab]
  exact Option.some.inj hsome

end Json

namespace ElementType

/-- The values of an element type are read back exactly, unless they are floating point numbers. -/
theorem readsBack {t : ElementType} (ht : ∀ k, t ≠ .float k) :
    Json.ReadsBack t.writeJson t.readJson := by
  cases t with
  | int k => exact Json.readsBack_int k
  | float k => exact absurd rfl (ht k)
  | bool => exact Json.readsBack_bool
  | char => exact Json.readsBack_char
  | text => exact Json.readsBack_text
  | nested => exact Json.readsBack_slot (Json.readsBack_int .i32)

theorem slotOfJson?_slotJson {t : ElementType} (ht : ∀ k, t ≠ .float k) (s : Nullable t.Value) :
    t.slotOfJson? (t.slotJson s) = some s :=
  Json.whole_write (Json.readsBack_slot (readsBack ht)) s

theorem columnOfJson?_columnJson {t : ElementType} (ht : ∀ k, t ≠ .float k) (c : Column t.Value) :
    t.columnOfJson? (t.columnJson c) = some c :=
  Json.whole_write (Json.readsBack_column (readsBack ht)) c

theorem slotJson_injective {t : ElementType} (ht : ∀ k, t ≠ .float k) :
    Function.Injective t.slotJson :=
  Json.injective_of_read (slotOfJson?_slotJson ht)

theorem columnJson_injective {t : ElementType} (ht : ∀ k, t ≠ .float k) :
    Function.Injective t.columnJson :=
  Json.injective_of_read (columnOfJson?_columnJson ht)

theorem slotJson_nested_null : nested.slotJson .null = "\"Null\"" := by
  decide

theorem slotJson_nested_value_null :
    nested.slotJson (.value (Nullable.null : Nullable (FixedInt .i32)))
      = "\x7b\"Value\":\"Null\"\x7d" := by
  decide

theorem slotJson_nested_value_value (n : FixedInt .i32) :
    nested.slotJson (.value (Nullable.value n))
      = "\x7b\"Value\":\x7b\"Value\":" ++ displayInt n ++ "\x7d\x7d" := by
  apply String.toList_inj.mp
  simp only [slotJson, displayInt, String.toList_append, String.toList_ofList]
  have hwrite : Json.writeSlot nested.writeJson (.value (Nullable.value n))
      = "\x7b\"Value\":\x7b\"Value\":".toList ++ Decimal.ofInt n.toInt ++ ['\x7d'] ++ ['\x7d'] := rfl
  rw [hwrite, List.append_assoc (_ ++ _)]
  rfl

/-- The texts of columns and slots give the columns and slots back, so that each text stands for one
value only, and an empty slot is never confused with a present one, on both levels of nesting. -/
theorem json_roundTrip (t : ElementType) (ht : ∀ k, t ≠ .float k) :
    (∀ c, t.columnOfJson? (t.columnJson c) = some c) ∧
    (∀ s, t.slotOfJson? (t.slotJson s) = some s) ∧
    Function.Injective t.columnJson ∧ Function.Injective t.slotJson ∧
    (∀ a, t.slotOfJson? (t.slotJson (.value a)) ≠ some .null) ∧
    (∀ a, t.slotOfJson? (t.slotJson .null) ≠ some (.value a)) ∧
    nested.slotJson .null = "\"Null\"" ∧
    nested.slotJson (.value (Nullable.null : Nullable (FixedInt .i32)))
      = "\x7b\"Value\":\"Null\"\x7d" ∧
    ∀ n : FixedInt .i32,
      nested.slotJson (.value (Nullable.value n))
        = "\x7b\"Value\":\x7b\"Value\":" ++ displayInt n ++ "\x7d\x7d" ∧
      [nested.slotJson .null, nested.slotJson (.value (Nullable.null : Nullable (FixedInt .i32))),
        nested.slotJson (.value (Nullable.value n))].Nodup := by
  have hcolumn : ∀ c, t.columnOfJson? (t.columnJson c) = some c := columnOfJson?_columnJson ht
  have hslot : ∀ s, t.slotOfJson? (t.slotJson s) = some s := slotOfJson?_slotJson ht
  refine ⟨hcolumn, hslot, columnJson_injective ht, slotJson_injective ht, ?_, ?_,
    slotJson_nested_null, slotJson_nested_value_null, ?_⟩
  · intro a
    rw [hslot]
    simp
  · intro a
    rw [hslot]
    simp
  · intro n
    refine ⟨slotJson_nested_value_value n, ?_⟩
    have hslots : ([.null, .value .null, .value (.value n)] : List (Nullable (Nullable _))).Nodup := by
      simp
    exact List.Pairwise.map nested.slotJson
      (fun s r hne h => hne (slotJson_injective (by simp) h)) hslots

theorem json_roundTrip_null_text :
    (∀ k, ElementType.text ≠ .float k) ∧
    text.columnJson ⟨[.value "Null", .null]⟩ = "[\x7b\"Value\":\"Null\"\x7d,\"Null\"]" ∧
    text.columnOfJson? (text.columnJson ⟨[.value "Null", .null]⟩)
      = some ⟨[.value "Null", .null]⟩ := by
  have htext : ∀ k, ElementType.text ≠ .float k := by simp
  exact ⟨htext, by decide, (json_roundTrip .text htext).1 ⟨[.value "Null", .null]⟩⟩

end ElementType

end ColumnAlgebra
