import ColumnAlgebra.Proofs.Json.Unambiguous

/-!
# The texts that are read as columns

A reader follows a form if it takes the spellings of that form off the front of a text and no other. The
readers of integers, truth values, characters and texts follow theirs; from values this passes to slots,
and so to the nested type, and by induction over the elements of an array to columns. Main result: a text
is read as a column exactly if it is an array of slots, and one element that is no slot refuses it all.
-/

namespace ColumnAlgebra
set_option autoImplicit false

namespace Json

section Readers

theorem word_eq_some {w cs rest : List Char} {u : Unit} (h : word w cs = some (u, rest)) :
    cs = w ++ rest := by
  fun_induction word w cs with
  | case1 cs =>
    cases h
    rfl
  | case2 ws w cs ih => rw [ih h, List.cons_append]
  | case3 => cases h
  | case4 => cases h

theorem mark_eq_some_iff {c : Char} (hc : isSpace c = false) {cs rest : List Char} {u : Unit} :
    mark c cs = some (u, rest) ↔ Spaces cs (c :: rest) := by
  constructor
  · intro h
    have hskip : skipSpace cs = c :: rest := word_eq_some h
    rw [← hskip]
    exact spaces_skipSpace cs
  · intro h
    have hskip : skipSpace cs = c :: rest := by
      rw [h.skipSpace_eq, skipSpace_of_not_isSpace hc]
    rw [mark, hskip]
    exact word_append [c] rest

theorem digits_eq_some {cs ds rest : List Char} (h : digits cs = some (ds, rest)) :
    cs = ds ++ rest ∧ IsDigits ds (Nat.ofDigitChars 10 ds 0) := by
  have happ : cs.takeWhile Char.isDigit ++ cs.dropWhile Char.isDigit = cs :=
    List.takeWhile_append_dropWhile
  have hdigit : ∀ d ∈ cs.takeWhile Char.isDigit, d.isDigit = true := by
    intro d hd
    exact List.all_eq_true.mp List.all_takeWhile d hd
  unfold digits at h
  split at h
  · cases h
  · rename_i d tail htake
    split at h
    · cases h
    · rename_i hzero
      cases h
      rw [htake] at happ hdigit
      refine ⟨happ.symm, by simp, hdigit, ?_, rfl⟩
      intro hhead
      obtain rfl : d = '0' := by simpa using hhead
      by_contra hne
      exact hzero ⟨rfl, by simpa using hne⟩

theorem minus_eq {cs cs' : List Char} {negative : Bool} (h : minus cs = (negative, cs')) :
    cs = (if negative then ['-'] else []) ++ cs' := by
  unfold minus at h
  split at h <;> cases h <;> rfl

/-- An integer that is read has been spelled, with the sign that its kind allows. -/
theorem readInt_eq_some {k : IntKind} {cs rest : List Char} {x : FixedInt k}
    (h : readInt k cs = some (x, rest)) : ∃ l, NumberText cs l rest ∧ IntForm k (.number l) x := by
  unfold readInt at h
  rcases hminus : minus cs with ⟨negative, cs'⟩
  simp only [hminus, Option.bind_eq_bind, Option.bind_eq_some_iff] at h
  obtain ⟨⟨ds, rest'⟩, hdigits, h⟩ := h
  dsimp only at h
  split at h
  · cases h
  · rename_i hzero
    obtain ⟨x', hx, hpure⟩ := Option.bind_eq_some_iff.mp h
    cases hpure
    obtain ⟨hds, isDigits⟩ := digits_eq_some hdigits
    have text : NumberText cs ⟨negative, Nat.ofDigitChars 10 ds 0, []⟩ rest := by
      rw [minus_eq hminus, hds]
      exact .mk negative isDigits .none .none
    refine ⟨_, text, rfl, FixedInt.toInt_of_ofInt? hx, ?_⟩
    intro hsigned
    by_contra hk
    exact hzero ⟨hsigned.1, hsigned.2, hk⟩

theorem readInt_of_text {k : IntKind} {cs rest : List Char} {l : NumberLiteral} {x : FixedInt k}
    (text : NumberText cs l rest) (hform : IntForm k (.number l) x) (hends : NumberEnds rest) :
    readInt k cs = some (x, rest) := by
  cases hform with
  | mk integer value zero =>
    cases text with
    | @mk ds fraction exponent rest n negative isDigits =>
      obtain ⟨rfl, rfl⟩ := List.append_eq_nil_iff.mp integer
      have hdigits : digits (ds ++ rest) = some (ds, rest) :=
        digits_append isDigits.isDigit isDigits.ne_nil isDigits.leading hends
      have hvalue : x.toInt = if negative = true then -(n : Int) else n := value
      have hzero : ¬ (negative = true ∧ n = 0 ∧ k ≠ ⟨true, .w128⟩) := by
        rintro ⟨hnegative, hn, hk⟩
        exact hk (zero ⟨hnegative, hn⟩)
      simp only [readInt, List.nil_append, minus_sign isDigits, hdigits, isDigits.value,
        Option.bind_eq_bind, Option.bind_some, if_neg hzero, ← hvalue, FixedInt.ofInt?_toInt]
      rfl

end Readers

/-- The reader takes only spellings of the form off the front of a text, after white space, and it takes
each of them that no digit follows. -/
structure Follows {α : Type} (read : Reader α) (form : Form α) : Prop where
  sound : ∀ {cs rest : List Char} {a : α}, read cs = some (a, rest) →
    ∃ e cs', Spaces cs cs' ∧ ValueText cs' e rest ∧ form e a
  complete : ∀ {cs rest : List Char} {e : Tree} {a : α}, ValueText cs e rest → form e a →
    NumberEnds rest → read cs = some (a, rest)

theorem follows_int (k : IntKind) : Follows (readInt k) (IntForm k) where
  sound := by
    intro cs rest x h
    obtain ⟨l, text, hform⟩ := readInt_eq_some h
    exact ⟨_, cs, .nil cs, .number text, hform⟩
  complete := by
    intro cs rest e x htext hform hends
    cases hform with
    | mk integer value zero =>
      cases htext with
      | number text => exact readInt_of_text text (.mk integer value zero) hends

theorem follows_bool : Follows readBool (ElementType.form .bool) where
  sound := by
    intro cs rest b h
    unfold readBool at h
    split at h
    · rename_i u rest' hword
      cases h
      obtain rfl : cs = "true".toList ++ rest := word_eq_some hword
      exact ⟨_, _, .nil _, .boolTrue rest, rfl⟩
    · obtain ⟨⟨u, rest'⟩, hword, hb⟩ := Option.map_eq_some_iff.mp h
      cases hb
      obtain rfl : cs = "false".toList ++ rest := word_eq_some hword
      exact ⟨_, _, .nil _, .boolFalse rest, rfl⟩
  complete := by
    rintro cs rest e b htext rfl -
    cases htext with
    | boolTrue => rfl
    | boolFalse => rfl

theorem follows_text : Follows readString (ElementType.form .text) where
  sound := by
    intro cs rest s h
    exact ⟨_, cs, .nil cs, .string (readString_eq_some_iff.mp h), rfl⟩
  complete := by
    rintro cs rest e s htext rfl -
    cases htext with
    | string text => exact readString_eq_some_iff.mpr text

theorem follows_char : Follows readChar (ElementType.form .char) where
  sound := by
    intro cs rest c h
    simp only [readChar, Option.bind_eq_bind, Option.bind_eq_some_iff] at h
    obtain ⟨⟨s, rest'⟩, hread, h⟩ := h
    dsimp only at h
    split at h
    · rename_i c' hs
      cases h
      obtain rfl : s = String.singleton c := String.toList_inj.mp (by simpa using hs)
      exact ⟨_, cs, .nil cs, .string (readString_eq_some_iff.mp hread), rfl⟩
    · cases h
  complete := by
    rintro cs rest e c htext rfl -
    cases htext with
    | string text =>
      simp only [readChar, readString_eq_some_iff.mpr text, String.toList_singleton,
        Option.bind_eq_bind, Option.bind_some]
      rfl

section Slots

variable {α : Type} {read : Reader α} {form : Form α}

theorem SlotForm.of_object {key : String} {e : Tree} {s : Nullable α}
    (h : SlotForm form (.object [(key, e)]) s) :
    key = "Null" ∧ e = .null ∨ key = "Value" ∧ ∃ a, form e a := by
  cases h with
  | null => exact .inl ⟨rfl, rfl⟩
  | value hform => exact .inr ⟨rfl, _, hform⟩

theorem SlotForm.of_value {e : Tree} {s : Nullable α} (h : SlotForm form (.object [("Value", e)]) s) :
    ∃ a, form e a := by
  rcases h.of_object with ⟨hkey, -⟩ | ⟨-, hform⟩
  · exact absurd hkey (by decide)
  · exact hform

/-- A member that is read is the one member of an object, as soon as the object is closed behind it. -/
theorem member_eq_some (h : Follows read form) {cs rest rest' : List Char} {s : Nullable α}
    (hread : member read cs = some (s, rest)) (close : Spaces rest ('\x7d' :: rest')) :
    ∃ ms, MembersText cs ms rest' ∧ SlotForm form (.object ms) s := by
  simp only [member, Option.bind_eq_bind, Option.bind_eq_some_iff] at hread
  obtain ⟨⟨key, cs₁⟩, hkey, ⟨u, cs₂⟩, hmark, hread⟩ := hread
  have before : Spaces cs (skipSpace cs) := spaces_skipSpace cs
  have name : StringText (skipSpace cs) key cs₁ := readString_eq_some_iff.mp hkey
  have colon : Spaces cs₁ (':' :: cs₂) := (mark_eq_some_iff rfl).mp hmark
  dsimp only at hread
  split at hread
  · rename_i hnull
    obtain ⟨⟨u, cs₃⟩, hword, hpure⟩ := Option.bind_eq_some_iff.mp hread
    cases hpure
    have text : ValueText (skipSpace cs₂) .null cs₃ := by
      rw [word_eq_some hword]
      exact .null cs₃
    rw [hnull] at name
    exact ⟨_, .last before name colon (spaces_skipSpace cs₂) text close, .null⟩
  · split at hread
    · rename_i hvalue
      obtain ⟨⟨a, cs₃⟩, hvalueRead, hpure⟩ := Option.bind_eq_some_iff.mp hread
      cases hpure
      obtain ⟨e, cs₄, spaces, text, hform⟩ := h.sound hvalueRead
      rw [hvalue] at name
      exact ⟨_, .last before name colon ((spaces_skipSpace cs₂).trans spaces) text close, .value hform⟩
    · cases hread

theorem member_of_text (h : Follows read form) {cs rest : List Char} {ms : List (String × Tree)}
    {s : Nullable α} (members : MembersText cs ms rest) (hform : SlotForm form (.object ms) s) :
    ∃ cs', member read cs = some (s, cs') ∧ Spaces cs' ('\x7d' :: rest) := by
  cases members with
  | @last key e cs cs₁ cs₂ cs₃ cs₄ cs₅ rest before name colon spaces text close =>
    have hkey : readString (skipSpace cs) = some (key, cs₂) := by
      rw [before.skipSpace_eq, (ValueText.string name).skipSpace_eq]
      exact readString_eq_some_iff.mpr name
    have hcolon : mark ':' cs₂ = some ((), cs₃) := (mark_eq_some_iff rfl).mpr colon
    have hvalue : skipSpace cs₃ = cs₄ := by rw [spaces.skipSpace_eq, text.skipSpace_eq]
    refine ⟨cs₅, ?_, close⟩
    cases hform with
    | null =>
      cases text
      have hword : word "null".toList ('n' :: 'u' :: 'l' :: 'l' :: cs₅) = some ((), cs₅) :=
        word_append "null".toList cs₅
      simp only [member, hkey, hcolon, hvalue, hword, Option.bind_eq_bind, Option.bind_some, if_true]
      rfl
    | @value e a hvalueForm =>
      have hread : read cs₄ = some (a, cs₅) :=
        h.complete text hvalueForm (close.literalEnds (literalEnds_delimiter rfl rest)).numberEnds
      have hname : ("Value" : String) ≠ "Null" := by decide
      simp only [member, hkey, hcolon, hvalue, hread, Option.bind_eq_bind, Option.bind_some,
        if_neg hname, if_true]
      rfl
  | cons _ _ _ _ _ _ more => cases hform <;> cases more

theorem readSlot_eq_some (h : Follows read form) {cs rest : List Char} {s : Nullable α}
    (hread : readSlot read cs = some (s, rest)) :
    ∃ e cs', Spaces cs cs' ∧ ValueText cs' e rest ∧ SlotForm form e s := by
  have spaces : Spaces cs (skipSpace cs) := spaces_skipSpace cs
  unfold readSlot at hread
  split at hread
  · rename_i cs' hbrace
    simp only [Option.bind_eq_bind, Option.bind_eq_some_iff] at hread
    obtain ⟨⟨s', cs₁⟩, hmember, ⟨u, rest'⟩, hclose, hpure⟩ := hread
    cases hpure
    obtain ⟨ms, members, hform⟩ := member_eq_some h hmember ((mark_eq_some_iff rfl).mp hclose)
    exact ⟨_, _, hbrace ▸ spaces, .object members, hform⟩
  · obtain ⟨⟨name, rest'⟩, hname, hread⟩ := Option.bind_eq_some_iff.mp hread
    dsimp only at hread
    split at hread
    · rename_i hnull
      cases hread
      rw [hnull] at hname
      exact ⟨_, _, spaces, .string (readString_eq_some_iff.mp hname), .name⟩
    · cases hread

/-- A slot is read after white space, whatever follows it. -/
theorem readSlot_of_text (h : Follows read form) {cs cs' rest : List Char} {e : Tree} {s : Nullable α}
    (spaces : Spaces cs cs') (text : ValueText cs' e rest) (hform : SlotForm form e s) :
    readSlot read cs = some (s, rest) := by
  have hskip : skipSpace cs = cs' := by rw [spaces.skipSpace_eq, text.skipSpace_eq]
  unfold readSlot
  rw [hskip]
  cases text with
  | @string name cs' rest name' =>
    cases hform
    split
    · cases name'
    · simp only [readString_eq_some_iff.mpr name', Option.bind_eq_bind, Option.bind_some]
      rfl
  | object members =>
    obtain ⟨cs₁, hmember, close⟩ := member_of_text h members hform
    have hclose : mark '\x7d' cs₁ = some ((), rest) := (mark_eq_some_iff rfl).mpr close
    simp only [hmember, hclose, Option.bind_eq_bind, Option.bind_some]
    rfl
  | _ => cases hform

theorem follows_slot (h : Follows read form) : Follows (readSlot read) (SlotForm form) where
  sound := by
    intro cs rest s hread
    exact readSlot_eq_some h hread
  complete := by
    intro cs rest e s text hform _
    exact readSlot_of_text h (.nil cs) text hform

theorem readSlots_eq_some (h : Follows read form) {cs rest : List Char} {slots : List (Nullable α)}
    (hread : readSlots read cs = some (slots, rest)) :
    ∃ es, ElementsText cs es rest ∧ List.Forall₂ (SlotForm form) es slots := by
  fun_induction readSlots read cs generalizing slots with
  | case1 cs s cs₁ hslot cs₂ hclose =>
    cases hread
    obtain ⟨e, cs', spaces, text, hform⟩ := readSlot_eq_some h hslot
    exact ⟨[e], .last spaces text (hclose ▸ spaces_skipSpace cs₁), .cons hform .nil⟩
  | case2 cs s cs₁ hslot cs₂ hcomma hlen ih =>
    obtain ⟨⟨slots', rest'⟩, hmore, hslots⟩ := Option.map_eq_some_iff.mp hread
    cases hslots
    obtain ⟨e, cs', spaces, text, hform⟩ := readSlot_eq_some h hslot
    obtain ⟨es, more, each⟩ := ih hmore
    exact ⟨e :: es, .cons spaces text (hcomma ▸ spaces_skipSpace cs₁) more, .cons hform each⟩
  | case3 => cases hread
  | case4 => cases hread
  | case5 => cases hread

theorem readSlots_of_text (h : Follows read form) {cs rest : List Char} {es : List Tree}
    {slots : List (Nullable α)} (each : List.Forall₂ (SlotForm form) es slots)
    (elements : ElementsText cs es rest) : readSlots read cs = some (slots, rest) := by
  -- The elements and their slots come in step, so the induction is on both lists at once.
  induction each generalizing cs with
  | nil => cases elements
  | @cons e s es slots hform each ih =>
    rw [readSlots.eq_def]
    cases elements with
    | @last _ _ cs₁ cs₂ _ spaces text close =>
      have hclose : skipSpace cs₂ = ']' :: rest := by
        rw [close.skipSpace_eq, skipSpace_of_not_isSpace rfl]
      cases each
      simp only [readSlot_of_text h spaces text hform, hclose]
    | @cons _ _ _ cs₁ cs₂ cs₃ _ spaces text comma more =>
      have hcomma : skipSpace cs₂ = ',' :: cs₃ := by
        rw [comma.skipSpace_eq, skipSpace_of_not_isSpace rfl]
      have hlen : cs₃.length < cs.length := by
        have hspaces := spaces.length_le
        have htext := text.length_lt
        have hrest := comma.length_le
        rw [List.length_cons] at hrest
        omega
      simp only [readSlot_of_text h spaces text hform, hcomma, if_pos hlen, ih more, Option.map_some]

theorem readColumn_eq_some (h : Follows read form) {cs rest : List Char} {c : Column α}
    (hread : readColumn read cs = some (c, rest)) :
    ∃ e cs', Spaces cs cs' ∧ ValueText cs' e rest ∧ ColumnForm form e c := by
  unfold readColumn at hread
  obtain ⟨⟨u, cs₁⟩, hopen, hread⟩ := Option.bind_eq_some_iff.mp hread
  have spaces : Spaces cs ('[' :: cs₁) := (mark_eq_some_iff rfl).mp hopen
  dsimp only at hread
  split at hread
  · rename_i rest' hclose
    cases hread
    exact ⟨_, _, spaces, .emptyArray (hclose ▸ spaces_skipSpace cs₁), .mk .nil⟩
  · obtain ⟨⟨slots, rest'⟩, hslots, hpure⟩ := Option.bind_eq_some_iff.mp hread
    cases hpure
    obtain ⟨es, elements, each⟩ := readSlots_eq_some h hslots
    exact ⟨_, _, spaces, .array elements, .mk each⟩

theorem readColumn_of_text (h : Follows read form) {cs cs' rest : List Char} {e : Tree} {c : Column α}
    (spaces : Spaces cs cs') (text : ValueText cs' e rest) (hform : ColumnForm form e c) :
    readColumn read cs = some (c, rest) := by
  cases hform with
  | @mk es slots each =>
    unfold readColumn
    cases text with
    | @emptyArray cs₁ rest close =>
      have hclose : skipSpace cs₁ = ']' :: rest := by
        rw [close.skipSpace_eq, skipSpace_of_not_isSpace rfl]
      have hopen : mark '[' cs = some ((), cs₁) := (mark_eq_some_iff rfl).mpr spaces
      cases each
      simp only [hopen, hclose, Option.bind_eq_bind, Option.bind_some]
      rfl
    | @array es cs₁ rest elements =>
      have hopen : mark '[' cs = some ((), cs₁) := (mark_eq_some_iff rfl).mpr spaces
      simp only [hopen, Option.bind_eq_bind, Option.bind_some]
      split
      · rename_i rest' hclose
        exact absurd (hclose ▸ spaces_skipSpace cs₁) elements.not_close
      · simp only [readSlots_of_text h each elements, Option.bind_some]
        rfl

end Slots

theorem exists_forall₂_iff {α β : Type} (R : α → β → Prop) (xs : List α) :
    (∃ ys, List.Forall₂ R xs ys) ↔ ∀ x ∈ xs, ∃ y, R x y := by
  induction xs with
  | nil => simp
  | cons x xs ih =>
    rw [List.forall_mem_cons, ← ih]
    constructor
    · rintro ⟨ys, each⟩
      cases each with
      | @cons _ y _ ys first more => exact ⟨⟨y, first⟩, ys, more⟩
    · rintro ⟨⟨y, first⟩, ys, more⟩
      exact ⟨y :: ys, .cons first more⟩

end Json

namespace ElementType

theorem follows {t : ElementType} (ht : ∀ k, t ≠ .float k) : Json.Follows t.readJson t.form := by
  cases t with
  | int k => exact Json.follows_int k
  | float k => exact absurd rfl (ht k)
  | bool => exact Json.follows_bool
  | char => exact Json.follows_char
  | text => exact Json.follows_text
  | nested => exact Json.follows_slot (Json.follows_int .i32)

/-- A text is read as a column if it is a document of the column's form, and only then. -/
theorem columnOfJson?_eq_some_iff {t : ElementType} (ht : ∀ k, t ≠ .float k) {text : String}
    {c : Column t.Value} :
    t.columnOfJson? text = some c ↔ ∃ e, Json.DocumentText text e ∧ Json.ColumnForm t.form e c := by
  unfold columnOfJson? Json.whole
  constructor
  · intro h
    split at h
    · rename_i c' rest hread
      split at h
      · rename_i hrest
        cases h
        obtain ⟨e, cs, before, value, hform⟩ := Json.readColumn_eq_some (follows ht) hread
        exact ⟨e, ⟨cs, rest, before, value, hrest ▸ Json.spaces_skipSpace rest⟩, hform⟩
      · cases h
    · cases h
  · rintro ⟨e, ⟨cs, rest, before, value, after⟩, hform⟩
    have hrest : Json.skipSpace rest = [] := after.skipSpace_eq
    simp only [Json.readColumn_of_text (follows ht) before value hform, hrest, if_true]

/-- Elements that come near a slot of the type: values without their tag, strings other than `Null`,
objects with no, an unknown, another or a repeated member, and tags on what is not theirs. -/
inductive NearMiss : ElementType → Json.Tree → Prop where
  | null (t : ElementType) : NearMiss t .null
  | bool (t : ElementType) (b : Bool) : NearMiss t (.bool b)
  | number (t : ElementType) (l : Json.NumberLiteral) : NearMiss t (.number l)
  | array (t : ElementType) (es : List Json.Tree) : NearMiss t (.array es)
  | string (t : ElementType) {s : String} (name : s ≠ "Null") : NearMiss t (.string s)
  | empty (t : ElementType) : NearMiss t (.object [])
  | unknown (t : ElementType) {key : String} {e : Json.Tree} {ms : List (String × Json.Tree)}
      (member : (key, e) ∈ ms) (name : key ∉ ["Null", "Value"]) : NearMiss t (.object ms)
  | more (t : ElementType) (m m' : String × Json.Tree) (ms : List (String × Json.Tree)) :
      NearMiss t (.object (m :: m' :: ms))
  | notNull (t : ElementType) {e : Json.Tree} (value : e ≠ .null) : NearMiss t (.object [("Null", e)])
  | nullValue (t : ElementType) : NearMiss t (.object [("Value", .null)])
  | range {k : IntKind} {l : Json.NumberLiteral} (out : l.toInt < k.minInt ∨ k.maxInt < l.toInt) :
      NearMiss (.int k) (.object [("Value", .number l)])
  | inner {e : Json.Tree} (miss : NearMiss (.int .i32) e) : NearMiss .nested (.object [("Value", e)])

theorem not_form_null (t : ElementType) (a : t.Value) : ¬ t.form .null a := by
  intro h
  cases t with
  | float => exact h
  | _ => cases h

theorem NearMiss.not_slotForm {t : ElementType} {e : Json.Tree} (h : t.NearMiss e)
    (s : Nullable t.Value) : ¬ Json.SlotForm t.form e s := by
  intro hslot
  induction h with
  | string t name =>
    cases hslot
    exact name rfl
  | unknown t member name =>
    cases hslot with
    | null =>
      obtain ⟨rfl, -⟩ := Prod.mk.inj (List.mem_singleton.mp member)
      exact name (by decide)
    | value =>
      obtain ⟨rfl, -⟩ := Prod.mk.inj (List.mem_singleton.mp member)
      exact name (by decide)
  | notNull t value =>
    rcases hslot.of_object with ⟨-, hnull⟩ | ⟨hkey, -⟩
    · exact value hnull
    · exact absurd hkey (by decide)
  | nullValue t =>
    obtain ⟨a, hform⟩ := hslot.of_value
    exact not_form_null t a hform
  | @range k l out =>
    obtain ⟨x, hform⟩ := hslot.of_value
    cases hform with
    | @mk l x integer value zero =>
      have hlower := FixedInt.minInt_le_toInt x
      have hupper := FixedInt.toInt_le_maxInt x
      omega
  | inner miss ih =>
    obtain ⟨s, hform⟩ := hslot.of_value
    exact ih s hform
  | _ => cases hslot

/-- An array whose elements are not all slots is not read. -/
theorem columnOfJson?_eq_none {t : ElementType} (ht : ∀ k, t ≠ .float k) {text : String}
    {es : List Json.Tree} (document : Json.DocumentText text (.array es)) {e : Json.Tree} (he : e ∈ es)
    (hbad : ∀ s, ¬ Json.SlotForm t.form e s) : t.columnOfJson? text = none := by
  cases hread : t.columnOfJson? text with
  | none => rfl
  | some c =>
    obtain ⟨e', document', hform⟩ := (columnOfJson?_eq_some_iff ht).mp hread
    obtain rfl := document.unique document'
    cases hform with
    | mk each =>
      obtain ⟨s, hslot⟩ := (Json.exists_forall₂_iff (Json.SlotForm t.form) es).mp ⟨_, each⟩ e he
      exact absurd hslot (hbad s)

/-- An array with more than white space behind it is not read. -/
theorem columnOfJson?_trailing {t : ElementType} (ht : ∀ k, t ≠ .float k) {text : String}
    {es : List Json.Tree} {cs rest : List Char} (before : Json.Spaces text.toList cs)
    (value : Json.ValueText cs (.array es) rest) (trailing : ¬ Json.Spaces rest []) :
    t.columnOfJson? text = none := by
  cases hread : t.columnOfJson? text with
  | none => rfl
  | some c =>
    obtain ⟨e', ⟨cs', rest', before', value', after⟩, hform⟩ := (columnOfJson?_eq_some_iff ht).mp hread
    cases hform with
    | mk each =>
      obtain rfl := before.start_unique value before' value'
      obtain ⟨-, rfl⟩ := value.unique value' trivial trivial
      exact absurd after trailing

/-- A text is read as a column exactly if it is, up to white space, an array each of whose elements is a
slot of the type, and the column has the slots of the elements in their order. One element that is no
slot refuses the whole text, and so does anything but white space behind the array. -/
theorem json_acceptance (t : ElementType) (ht : ∀ k, t ≠ .float k) :
    (∀ text, (t.columnOfJson? text).isSome = true ↔
      ∃ es, Json.DocumentText text (.array es) ∧ ∀ e ∈ es, ∃ s, Json.SlotForm t.form e s) ∧
    (∀ text c, t.columnOfJson? text = some c ↔
      ∃ es, Json.DocumentText text (.array es) ∧ List.Forall₂ (Json.SlotForm t.form) es c.slots) ∧
    (∀ text es, Json.DocumentText text (.array es) →
      ∀ e ∈ es, (∀ s, ¬ Json.SlotForm t.form e s) → t.columnOfJson? text = none) ∧
    (∀ text es, Json.DocumentText text (.array es) →
      ∀ e ∈ es, t.NearMiss e → t.columnOfJson? text = none) ∧
    ∀ text cs es rest, Json.Spaces text.toList cs → Json.ValueText cs (.array es) rest →
      ¬ Json.Spaces rest [] → t.columnOfJson? text = none := by
  have hsome : ∀ text c, t.columnOfJson? text = some c ↔
      ∃ es, Json.DocumentText text (.array es) ∧ List.Forall₂ (Json.SlotForm t.form) es c.slots := by
    intro text c
    rw [columnOfJson?_eq_some_iff ht]
    constructor
    · rintro ⟨e, document, hform⟩
      cases hform with
      | mk each => exact ⟨_, document, each⟩
    · rintro ⟨es, document, each⟩
      exact ⟨_, document, .mk each⟩
  refine ⟨?_, hsome, ?_, ?_, ?_⟩
  · intro text
    rw [Option.isSome_iff_exists]
    constructor
    · rintro ⟨c, hread⟩
      obtain ⟨es, document, each⟩ := (hsome text c).mp hread
      exact ⟨es, document, (Json.exists_forall₂_iff _ es).mp ⟨c.slots, each⟩⟩
    · rintro ⟨es, document, each⟩
      obtain ⟨slots, each⟩ := (Json.exists_forall₂_iff _ es).mpr each
      exact ⟨⟨slots⟩, (hsome text ⟨slots⟩).mpr ⟨es, document, each⟩⟩
  · intro text es document e he hbad
    exact columnOfJson?_eq_none ht document he hbad
  · intro text es document e he hmiss
    exact columnOfJson?_eq_none ht document he hmiss.not_slotForm
  · intro text cs es rest before value trailing
    exact columnOfJson?_trailing ht before value trailing

theorem json_acceptance_bare_null :
    (∀ k, nested ≠ .float k) ∧
    Json.DocumentText "[\"Null\", \x7b\"Value\": null\x7d]"
      (.array [.string "Null", .object [("Value", .null)]]) ∧
    nested.columnOfJson? "[\"Null\", \x7b\"Value\": null\x7d]" = none := by
  have hnested : ∀ k, nested ≠ .float k := by simp
  have document : Json.DocumentText "[\"Null\", \x7b\"Value\": null\x7d]"
      (.array [.string "Null", .object [("Value", .null)]]) :=
    ⟨_, [], .nil _, .array (.cons (.nil _) (.string (Json.stringText_writeString "Null" _)) (.nil _)
      (.last (.cons (by decide) (.nil _))
        (.object (.last (.nil _) (Json.stringText_writeString "Value" _) (.nil _)
          (.cons (by decide) (.nil _)) (.null _) (.nil _))) (.nil _))), .nil []⟩
  exact ⟨hnested, document, (json_acceptance .nested hnested).2.2.2.1 _ _ document _
    (by simp) (.nullValue .nested)⟩

end ElementType
end ColumnAlgebra
