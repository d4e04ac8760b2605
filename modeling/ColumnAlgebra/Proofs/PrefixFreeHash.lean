import ColumnAlgebra.HashData
import ColumnAlgebra.Proofs.ColumnEquality

/-!
# Equal hash data come from equal columns only

Data are prefix-free if they can be taken off the front of anything that follows them in one way only.
Words of a fixed width are, and so is what ends in a byte that it does not contain otherwise, as a text
does; a slot, which puts a mark before its value, keeps it. Then the slots of a column can be read off
their data one after the other, by induction on the slots, and no length is needed for that. Main
statement: the data of two columns agree exactly if the columns are equal.
-/

namespace ColumnAlgebra
set_option autoImplicit false

variable {α : Type}

/-- Whatever follows, the data tell where they end and what they come from. -/
structure PrefixFree (data : α → List UInt8) : Prop where
  cut : ∀ {a b : α} {u v : List UInt8}, data a ++ u = data b ++ v → a = b ∧ u = v

namespace PrefixFree

variable {data : α → List UInt8} {a b : α}

theorem injective (h : PrefixFree data) (hab : data a = data b) : a = b := by
  have happend : data a ++ [] = data b ++ [] := by rw [hab]
  exact (h.cut happend).1

theorem eq_of_isPrefix (h : PrefixFree data) (hab : data a <+: data b) : a = b := by
  obtain ⟨u, hu⟩ := hab
  have happend : data a ++ u = data b ++ [] := by rw [hu, List.append_nil]
  exact (h.cut happend).1

theorem of_fixedWidth {width : Nat} (hwidth : ∀ a, (data a).length = width)
    (hinj : ∀ {a b}, data a = data b → a = b) : PrefixFree data := by
  constructor
  intro a b u v h
  have hl : (data a).length = (data b).length := by rw [hwidth, hwidth]
  obtain ⟨hab, huv⟩ := List.append_inj h hl
  exact ⟨hinj hab, huv⟩

/-- The byte at the end is found by where it first stands. -/
theorem of_terminated {z : UInt8} (hfresh : ∀ a, z ∉ data a)
    (hinj : ∀ {a b}, data a = data b → a = b) : PrefixFree fun a => data a ++ [z] := by
  constructor
  intro a b u v h
  simp only [List.append_assoc, List.singleton_append] at h
  have hsplit := congrArg (List.splitOn z) h
  rw [List.splitOn_append_cons_self_of_not_mem (hfresh a),
    List.splitOn_append_cons_self_of_not_mem (hfresh b)] at hsplit
  have hab := (List.cons.inj hsplit).1
  rw [hab, List.append_cancel_left_eq] at h
  exact ⟨hinj hab, (List.cons.inj h).2⟩

section Lists

variable (h : PrefixFree data) (hne : ∀ a, data a ≠ [])
include h hne

/-- What is left of the longer list has the data that are left. -/
theorem flatMap_prefix_iff {xs ys : List α} : xs.flatMap data <+: ys.flatMap data ↔ xs <+: ys := by
  constructor
  · intro hxy
    induction xs generalizing ys with
    | nil => exact List.nil_prefix
    | cons x xs ih =>
      obtain ⟨u, hu⟩ := hxy
      rw [List.flatMap_cons, List.append_assoc] at hu
      cases ys with
      | nil => exact absurd (List.append_eq_nil_iff.mp hu).1 (hne x)
      | cons y ys =>
        rw [List.flatMap_cons] at hu
        obtain ⟨rfl, hrest⟩ := h.cut hu
        exact List.cons_prefix_cons.mpr ⟨rfl, ih ⟨u, hrest⟩⟩
  · rintro ⟨zs, rfl⟩
    rw [List.flatMap_append]
    exact List.prefix_append _ _

theorem flatMap_injective {xs ys : List α} (hxy : xs.flatMap data = ys.flatMap data) : xs = ys := by
  have hle : xs <+: ys := (flatMap_prefix_iff h hne).mp (hxy ▸ List.prefix_rfl)
  have hge : ys <+: xs := (flatMap_prefix_iff h hne).mp (hxy ▸ List.prefix_rfl)
  exact hle.eq_of_length_le hge.length_le

end Lists

end PrefixFree

namespace HashData

theorem length_bytes (n x : Nat) : (bytes n x).length = n := by
  induction n generalizing x with
  | zero => rfl
  | succ n ih => rw [bytes, List.length_cons, ih]

theorem mod_eq_of_bytes_eq {n x y : Nat} (h : bytes n x = bytes n y) :
    x % 256 ^ n = y % 256 ^ n := by
  induction n generalizing x y with
  | zero => rw [Nat.pow_zero, Nat.mod_one, Nat.mod_one]
  | succ n ih =>
    obtain ⟨hlow, hhigh⟩ := List.cons.inj h
    have hbyte : x % 256 = y % 256 := by
      have hnat := congrArg UInt8.toNat hlow
      rwa [UInt8.toNat_ofNat', UInt8.toNat_ofNat'] at hnat
    rw [Nat.pow_succ', Nat.mod_mul, Nat.mod_mul, hbyte, ih hhigh]

theorem eq_of_bytes_eq {n x y : Nat} (hx : x < 256 ^ n) (hy : y < 256 ^ n)
    (h : bytes n x = bytes n y) : x = y := by
  have hmod := mod_eq_of_bytes_eq h
  rwa [Nat.mod_eq_of_lt hx, Nat.mod_eq_of_lt hy] at hmod

/-- Numbers that fit the width and tell the values apart. -/
theorem prefixFree_bytes {n : Nat} {number : α → Nat} (hlt : ∀ a, number a < 256 ^ n)
    (hinj : ∀ {a b}, number a = number b → a = b) : PrefixFree fun a => bytes n (number a) := by
  apply PrefixFree.of_fixedWidth
  · intro a
    exact length_bytes n (number a)
  · intro a b hab
    exact hinj (eq_of_bytes_eq (hlt a) (hlt b) hab)

theorem prefixFree_int (k : IntKind) : PrefixFree (int (k := k)) := by
  apply prefixFree_bytes
  · intro x
    have hbits : 8 * (k.bits / 8) = k.bits := by
      rcases k with ⟨_, w⟩
      cases w <;> simp [IntKind.bits, IntWidth.bits]
    have hbyte : 256 ^ (k.bits / 8) = 2 ^ k.bits := by
      conv => rhs; rw [← hbits, Nat.pow_mul]
    rw [hbyte]
    exact x.word.isLt
  · intro x y hxy
    cases x
    cases y
    exact congrArg FixedInt.mk (BitVec.eq_of_toNat_eq hxy)

theorem prefixFree_bool : PrefixFree fun x : Bool => bytes 1 x.toNat := by
  apply prefixFree_bytes
  · decide
  · intro x y hxy
    cases x <;> cases y <;> first | rfl | cases hxy

theorem prefixFree_char : PrefixFree fun x : Char => bytes 4 x.toNat := by
  apply prefixFree_bytes
  · intro x
    exact x.val.toNat_lt
  · intro x y hxy
    exact Char.toNat_inj.mp hxy

theorem utf8_eq_flatMap (s : String) :
    s.toUTF8.data.toList = s.toList.flatMap String.utf8EncodeChar := by
  have hencode := String.toByteArray_ofList (l := s.toList)
  rw [String.ofList_toList] at hencode
  rw [String.toUTF8_eq_toByteArray, hencode, List.utf8Encode, List.toList_data_toByteArray]

/-- No byte of a character has all of its five top bits set. -/
theorem toNat_lt_of_mem_utf8EncodeChar {c : Char} {b : UInt8} (hb : b ∈ String.utf8EncodeChar c) :
    b.toNat < 0xff := by
  unfold String.utf8EncodeChar at hb
  dsimp only at hb
  split at hb
  · simp only [List.mem_singleton] at hb
    rw [hb, UInt8.toNat_ofNat']
    omega
  · split at hb
    · simp only [List.mem_cons, List.not_mem_nil, or_false] at hb
      rcases hb with rfl | rfl <;> rw [UInt8.toNat_ofNat'] <;> omega
    · split at hb
      · simp only [List.mem_cons, List.not_mem_nil, or_false] at hb
        rcases hb with rfl | rfl | rfl <;> rw [UInt8.toNat_ofNat'] <;> omega
      · simp only [List.mem_cons, List.not_mem_nil, or_false] at hb
        rcases hb with rfl | rfl | rfl | rfl <;> rw [UInt8.toNat_ofNat'] <;> omega

theorem prefixFree_text : PrefixFree fun x : String => x.toUTF8.data.toList ++ [0xff] := by
  apply PrefixFree.of_terminated
  · intro s hs
    rw [utf8_eq_flatMap] at hs
    obtain ⟨c, -, hc⟩ := List.mem_flatMap.mp hs
    exact absurd (toNat_lt_of_mem_utf8EncodeChar hc) (by decide)
  · intro s r hsr
    have hdata : s.toUTF8 = r.toUTF8 := ByteArray.ext (Array.toList_inj.mp hsr)
    exact String.toByteArray_inj.mp hdata

theorem slot_ne_nil (data : α → List UInt8) (s : Nullable α) : slot data s ≠ [] := by
  cases s with
  | null => exact List.cons_ne_nil _ _
  | value a => exact List.cons_ne_nil _ _

/-- The mark comes first and has the same width for both kinds of slots. -/
theorem prefixFree_slot {data : α → List UInt8} (h : PrefixFree data) : PrefixFree (slot data) := by
  constructor
  intro s r u v hsr
  have hmarks : bytes 8 0 ≠ bytes 8 1 := by decide
  have hmark {x y : Nat} {u v : List UInt8} (huv : bytes 8 x ++ u = bytes 8 y ++ v) :
      bytes 8 x = bytes 8 y ∧ u = v :=
    List.append_inj huv (by rw [length_bytes, length_bytes])
  cases s with
  | null =>
    cases r with
    | null => exact ⟨rfl, (hmark hsr).2⟩
    | value b =>
      rw [slot, slot, List.append_assoc] at hsr
      exact absurd (hmark hsr).1 hmarks
  | value a =>
    cases r with
    | null =>
      rw [slot, slot, List.append_assoc] at hsr
      exact absurd (hmark hsr).1.symm hmarks
    | value b =>
      rw [slot, slot, List.append_assoc, List.append_assoc] at hsr
      obtain ⟨hab, huv⟩ := h.cut (hmark hsr).2
      exact ⟨congrArg Nullable.value hab, huv⟩

/-- The length at the front is determined by what follows it. -/
theorem column_eq_iff {data : α → List UInt8} (h : PrefixFree data) {a b : Column α} :
    column data a = column data b ↔ a = b := by
  constructor
  · intro hab
    have hl : (bytes 8 a.length).length = (bytes 8 b.length).length := by
      rw [length_bytes, length_bytes]
    obtain ⟨-, hslots⟩ := List.append_inj hab hl
    exact congrArg Column.mk ((prefixFree_slot h).flatMap_injective (slot_ne_nil data) hslots)
  · rintro rfl
    rfl

end HashData

/-- Every type but floating point numbers has hash data. -/
theorem ElementType.exists_hashData {t : ElementType} (hexact : ∀ k, t ≠ .float k) :
    ∃ data, t.hashData? = some data ∧ PrefixFree data := by
  cases t with
  | int k => exact ⟨_, rfl, HashData.prefixFree_int k⟩
  | float k => exact absurd rfl (hexact k)
  | bool => exact ⟨_, rfl, HashData.prefixFree_bool⟩
  | char => exact ⟨_, rfl, HashData.prefixFree_char⟩
  | text => exact ⟨_, rfl, HashData.prefixFree_text⟩
  | nested => exact ⟨_, rfl, HashData.prefixFree_slot (HashData.prefixFree_int .i32)⟩

open Column in
/-- Of every type with an exact equality, two columns have the same hash data exactly if they are equal,
and so have two slots. The data of a slot never begin those of another one, and wherever slots stand in
columns, the data of one run of slots begin those of another exactly if the slots do. -/
theorem hash_agrees_with_equality {t : ElementType} (hexact : ∀ k, t ≠ .float k) :
    ∃ data, t.hashData? = some data ∧
      (∀ a b : Column t.Value,
        HashData.column data a = HashData.column data b ↔ a.equalTo t.beq b = true) ∧
      (∀ s r : Nullable t.Value, HashData.slot data s = HashData.slot data r ↔ s.equal t.beq r = true) ∧
      (∀ s r : Nullable t.Value, HashData.slot data s <+: HashData.slot data r → s = r) ∧
      ∀ a b : Column t.Value,
        a.slots.flatMap (HashData.slot data) <+: b.slots.flatMap (HashData.slot data) ↔
          a.slots <+: b.slots := by
  obtain ⟨data, hdata, hfree⟩ := ElementType.exists_hashData hexact
  have hslot := HashData.prefixFree_slot hfree
  have hidentity := t.beq_eq_true_iff hexact
  refine ⟨data, hdata, fun a b => ?_, fun s r => ?_, fun s r => hslot.eq_of_isPrefix, fun a b => ?_⟩
  · rw [HashData.column_eq_iff hfree, equalTo_eq_true_iff_eq hidentity]
  · rw [Nullable.equal_eq_true_iff, Nullable.matches_iff_eq hidentity]
    constructor
    · exact hslot.injective
    · rintro rfl
      rfl
  · exact hslot.flatMap_prefix_iff (HashData.slot_ne_nil data)

/-- The same characters in texts that are cut in different places. -/
theorem hash_agrees_with_equality_texts : (∀ k, ElementType.text ≠ .float k) ∧
    ∃ data, ElementType.text.hashData? = some data ∧
      HashData.column data (.ofValues ["ab", "c"]) ≠ HashData.column data (.ofValues ["a", "bc"]) := by
  have hexact : ∀ k, ElementType.text ≠ .float k := nofun
  obtain ⟨data, hdata, hcolumn, -⟩ := hash_agrees_with_equality hexact
  refine ⟨hexact, data, hdata, fun hsame => ?_⟩
  have hequal := (hcolumn (.ofValues ["ab", "c"]) (.ofValues ["a", "bc"])).mp hsame
  exact absurd hequal (by decide)

end ColumnAlgebra
