import ColumnAlgebra.Proofs.Json.Grammar
import ColumnAlgebra.Proofs.Json.StringLiteral

/-!
# Strings are read as they are spelled

Each reader of a part of a string takes exactly the spellings of that part: hexadecimal digits, units,
single characters, and by induction over the characters all that stands before the closing quote.
-/

namespace ColumnAlgebra.Json
set_option autoImplicit false

theorem toNat_ofNat {n : Nat} (h : n.isValidChar) : (Char.ofNat n).toNat = n := by
  unfold Char.ofNat
  rw [dif_pos h]
  rfl

theorem toNat_lt_of_hexValue? {c : Char} {v : Nat} (h : hexValue? c = some v) : c.toNat < 128 := by
  unfold hexValue? at h
  split at h
  · rename_i hdigit
    exact Nat.lt_of_le_of_lt (Char.isDigit_iff_toNat.mp hdigit).2 (by decide)
  · split at h
    · rename_i hlower
      exact Nat.lt_of_le_of_lt hlower.2 (by decide)
    · split at h
      · rename_i hupper
        exact Nat.lt_of_le_of_lt hupper.2 (by decide)
      · cases h

theorem HexDigit.lt {c : Char} {v : Nat} (h : HexDigit c v) : v < 16 := by
  rcases h with h | h
  · exact (List.getElem?_eq_some_iff.mp h).1
  · exact (List.getElem?_eq_some_iff.mp h).1

theorem hexValue?_eq_some_iff {c : Char} {v : Nat} : hexValue? c = some v ↔ HexDigit c v := by
  constructor
  · intro h
    have hall : ∀ n : Fin 128, ∀ v ∈ hexValue? (Char.ofNat n),
        "0123456789abcdef".toList[v]? = some (Char.ofNat n) ∨
          "0123456789ABCDEF".toList[v]? = some (Char.ofNat n) := by decide
    have hc := hall ⟨c.toNat, toNat_lt_of_hexValue? h⟩ v
    simp only [Char.ofNat_toNat] at hc
    exact hc h
  · intro h
    have hall : ∀ v : Fin 16, "0123456789abcdef".toList[v.val]?.bind hexValue? = some v.val ∧
        "0123456789ABCDEF".toList[v.val]?.bind hexValue? = some v.val := by decide
    have hv : v < 16 := h.lt
    rcases h with h | h
    · simpa only [h, Option.bind_some] using (hall ⟨v, hv⟩).1
    · simpa only [h, Option.bind_some] using (hall ⟨v, hv⟩).2

theorem HexText.lt {cs rest : List Char} {n : Nat} (h : HexText cs n rest) : n < 0x10000 := by
  cases h with
  | mk ha hb hc hd =>
    have hp := ha.lt
    have hq := hb.lt
    have hr := hc.lt
    have hs := hd.lt
    omega

theorem HexText.length {cs rest : List Char} {n : Nat} (h : HexText cs n rest) :
    cs.length = rest.length + 4 := by
  cases h with
  | mk => rfl

theorem codeUnit_eq_some_iff {cs rest : List Char} {n : Nat} :
    codeUnit cs = some (n, rest) ↔ HexText cs n rest := by
  constructor
  · intro h
    unfold codeUnit at h
    split at h
    · rename_i a b c d cs
      simp only [Option.bind_eq_bind, Option.bind_eq_some_iff] at h
      obtain ⟨p, ha, q, hb, r, hc, s, hd, h⟩ := h
      cases h
      have hn : ((p * 16 + q) * 16 + r) * 16 + s = p * 4096 + q * 256 + r * 16 + s := by omega
      rw [hn]
      exact .mk (hexValue?_eq_some_iff.mp ha) (hexValue?_eq_some_iff.mp hb)
        (hexValue?_eq_some_iff.mp hc) (hexValue?_eq_some_iff.mp hd)
    · cases h
  · intro h
    cases h with
    | @mk a b c d p q r s rest ha hb hc hd =>
      have hn : ((p * 16 + q) * 16 + r) * 16 + s = p * 4096 + q * 256 + r * 16 + s := by omega
      simp only [codeUnit, hexValue?_eq_some_iff.mpr ha, hexValue?_eq_some_iff.mpr hb,
        hexValue?_eq_some_iff.mpr hc, hexValue?_eq_some_iff.mpr hd, Option.bind_eq_bind,
        Option.bind_some, hn]
      rfl

theorem trailingUnit_eq_some_iff {cs rest : List Char} {n : Nat} :
    trailingUnit cs = some (n, rest) ↔
      (0xdc00 ≤ n ∧ n < 0xe000) ∧ ∃ cs', cs = '\\' :: 'u' :: cs' ∧ HexText cs' n rest := by
  constructor
  · intro h
    unfold trailingUnit at h
    split at h
    · rename_i cs'
      split at h
      · rename_i unit rest' hunit
        split at h
        · rename_i hlow
          cases h
          exact ⟨hlow, cs', rfl, codeUnit_eq_some_iff.mp hunit⟩
        · cases h
      · cases h
    · cases h
  · rintro ⟨hlow, cs', rfl, htext⟩
    simp only [trailingUnit, codeUnit_eq_some_iff.mpr htext, if_pos hlow]

theorem unicodeEscape_eq_some {cs rest : List Char} {c : Char} (h : unicodeEscape cs = some (c, rest)) :
    CharacterText ('\\' :: 'u' :: cs) c rest := by
  unfold unicodeEscape at h
  simp only [Option.bind_eq_bind, Option.bind_eq_some_iff] at h
  obtain ⟨⟨unit, rest'⟩, hunit, h⟩ := h
  have htext : HexText cs unit rest' := codeUnit_eq_some_iff.mp hunit
  have hunit := htext.lt
  dsimp only at h
  split at h
  · rename_i hhigh
    obtain ⟨⟨low, rest''⟩, htrailing, hpure⟩ := Option.bind_eq_some_iff.mp h
    obtain ⟨hlow, cs', rfl, hsecond⟩ := trailingUnit_eq_some_iff.mp htrailing
    simp only [Option.pure_def, Option.some.injEq, Prod.mk.injEq] at hpure
    obtain ⟨rfl, rfl⟩ := hpure
    exact .pair htext hsecond hhigh hlow (toNat_ofNat (by unfold Nat.isValidChar; omega))
  · split at h
    · cases h
    · cases h
      exact .unit htext (toNat_ofNat (by unfold Nat.isValidChar; omega))

theorem stringCharacter_eq_some {cs rest : List Char} {c : Char}
    (h : stringCharacter cs = some (c, rest)) : CharacterText cs c rest := by
  unfold stringCharacter at h
  split at h
  · exact unicodeEscape_eq_some h
  · cases h
    exact .sign (by decide)
  · rename_i sign cs _ _
    obtain ⟨⟨letter, c'⟩, hfind, hc⟩ := Option.map_eq_some_iff.mp h
    obtain rfl : letter = sign := by simpa using List.find?_some hfind
    cases hc
    have hsub : ∀ p ∈ letterEscapes, p ∈ signEscapes := by decide
    exact .sign (hsub _ (List.mem_of_find?_eq_some hfind))
  · rename_i c' cs _
    split at h
    · cases h
    · rename_i hplain
      cases h
      simp only [not_or, Nat.not_lt] at hplain
      exact .plain hplain.1 hplain.2.2 hplain.2.1
  · cases h

theorem stringCharacter_of_text {cs rest : List Char} {c : Char} (h : CharacterText cs c rest) :
    stringCharacter cs = some (c, rest) := by
  cases h with
  | plain control quote backslash =>
    exact stringCharacter_plain (Nat.not_lt.mpr control) backslash quote _
  | @sign sign c rest escape =>
    have hall : ∀ p ∈ signEscapes, p.1 ≠ 'u' ∧ (p.1 = '/' ∧ p.2 = '/' ∨ p ∈ letterEscapes) := by decide
    obtain ⟨-, ⟨rfl, rfl⟩ | hletter⟩ := hall _ escape
    · rfl
    · exact stringCharacter_letter hletter rest
  | @unit c n cs rest hex code =>
    have hvalid : n < 0xd800 ∨ 0xdfff < n ∧ n < 0x110000 := code ▸ c.valid
    simp only [stringCharacter, unicodeEscape, codeUnit_eq_some_iff.mpr hex, Option.bind_eq_bind,
      Option.bind_some]
    rw [if_neg (by omega), if_neg (by omega), ← code, Char.ofNat_toNat]
    rfl
  | @pair c high low cs cs' rest first second isHigh isLow code =>
    have htrailing : trailingUnit ('\\' :: 'u' :: cs') = some (low, rest) :=
      trailingUnit_eq_some_iff.mpr ⟨isLow, cs', rfl, second⟩
    simp only [stringCharacter, unicodeEscape, codeUnit_eq_some_iff.mpr first, if_pos isHigh, htrailing,
      Option.bind_eq_bind, Option.bind_some]
    rw [← code, Char.ofNat_toNat]
    rfl

theorem CharacterText.length_lt {cs rest : List Char} {c : Char} (h : CharacterText cs c rest) :
    rest.length < cs.length := by
  cases h with
  | plain => exact Nat.lt_succ_self _
  | sign => exact Nat.lt_succ_of_lt (Nat.lt_succ_self _)
  | unit hex =>
    have hlen := hex.length
    simp only [List.length_cons]
    omega
  | pair first second =>
    have hfirst := first.length
    have hsecond := second.length
    simp only [List.length_cons] at hfirst ⊢
    omega

theorem CharacterText.ne_quote {cs rest : List Char} {c : Char} (h : CharacterText cs c rest)
    (cs' : List Char) : cs ≠ '"' :: cs' := by
  rintro rfl
  cases h with
  | plain _ quote => exact quote rfl

theorem stringRest_eq_some_iff {cs rest s : List Char} :
    stringRest cs = some (s, rest) ↔ CharactersText cs s rest := by
  constructor
  · intro h
    fun_induction stringRest cs generalizing s with
    | case1 cs =>
      cases h
      exact .nil _
    | case2 cs hquote c cs' hread hlen ih =>
      obtain ⟨⟨s', rest'⟩, hmore, hs⟩ := Option.map_eq_some_iff.mp h
      cases hs
      exact .cons (stringCharacter_eq_some hread) (ih hmore)
    | case3 => cases h
    | case4 => cases h
  · intro h
    induction h with
    | nil rest => rw [stringRest]
    | @cons c s cs cs' rest first more ih =>
      rw [stringRest.eq_def]
      split
      · exact absurd rfl (first.ne_quote _)
      · simp only [stringCharacter_of_text first, if_pos first.length_lt, ih, Option.map_some]

theorem CharactersText.length_lt {cs rest s : List Char} (h : CharactersText cs s rest) :
    rest.length < cs.length := by
  induction h with
  | nil => exact Nat.lt_succ_self _
  | cons first _ ih => exact Nat.lt_trans ih first.length_lt

theorem StringText.length_lt {cs rest : List Char} {s : String} (h : StringText cs s rest) :
    rest.length < cs.length := by
  cases h with
  | mk characters => exact Nat.lt_succ_of_lt characters.length_lt

theorem readString_eq_some_iff {cs rest : List Char} {s : String} :
    readString cs = some (s, rest) ↔ StringText cs s rest := by
  constructor
  · intro h
    unfold readString at h
    split at h
    · obtain ⟨⟨s', rest'⟩, hrest, hs⟩ := Option.map_eq_some_iff.mp h
      cases hs
      exact .mk (by simpa using stringRest_eq_some_iff.mp hrest)
    · cases h
  · intro h
    cases h with
    | mk characters =>
      simp only [readString, stringRest_eq_some_iff.mpr characters, Option.map_some, String.ofList_toList]

theorem stringText_writeString (s : String) (cs : List Char) : StringText (writeString s ++ cs) s cs :=
  readString_eq_some_iff.mp (readString_writeString s cs)

end ColumnAlgebra.Json
