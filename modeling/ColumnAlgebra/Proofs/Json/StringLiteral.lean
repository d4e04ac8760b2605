import ColumnAlgebra.Json.StringLiteral

/-!
# Reading back a written string

Reading undoes the escape of each character in front of any text. By induction over the characters a
whole string is then read back up to its closing quote, whatever follows it.
-/

namespace ColumnAlgebra.Json
set_option autoImplicit false

theorem hexValue?_hexDigit {n : Nat} (hn : n < 16) : hexValue? (hexDigit n) = some n := by
  have hall : ∀ m : Fin 16, hexValue? (hexDigit m) = some m.val := by decide
  exact hall ⟨n, hn⟩

theorem unicodeEscape_control {c : Char} (hc : c.toNat < 0x20) (cs : List Char) :
    unicodeEscape ('0' :: '0' :: hexDigit (c.toNat / 16) :: hexDigit (c.toNat % 16) :: cs)
      = some (c, cs) := by
  have hzero : hexValue? '0' = some 0 := by decide
  have hhigh : hexValue? (hexDigit (c.toNat / 16)) = some (c.toNat / 16) :=
    hexValue?_hexDigit (by omega)
  have hlow : hexValue? (hexDigit (c.toNat % 16)) = some (c.toNat % 16) :=
    hexValue?_hexDigit (by omega)
  have hunit : ((0 * 16 + 0) * 16 + c.toNat / 16) * 16 + c.toNat % 16 = c.toNat := by omega
  have hcode : codeUnit ('0' :: '0' :: hexDigit (c.toNat / 16) :: hexDigit (c.toNat % 16) :: cs)
      = some (c.toNat, cs) := by
    simp only [codeUnit, hzero, hhigh, hlow, Option.bind_eq_bind, Option.bind_some, hunit]
    rfl
  simp only [unicodeEscape, hcode, Option.bind_eq_bind, Option.bind_some]
  rw [if_neg (by omega), if_neg (by omega), Char.ofNat_toNat]
  rfl

theorem stringCharacter_letter {letter c : Char} (h : (letter, c) ∈ letterEscapes) (cs : List Char) :
    stringCharacter ('\\' :: letter :: cs) = some (c, cs) := by
  simp only [letterEscapes, List.mem_cons, Prod.mk.injEq, List.not_mem_nil, or_false] at h
  rcases h with ⟨rfl, rfl⟩ | ⟨rfl, rfl⟩ | ⟨rfl, rfl⟩ | ⟨rfl, rfl⟩ | ⟨rfl, rfl⟩ | ⟨rfl, rfl⟩ | ⟨rfl, rfl⟩
    <;> rfl

theorem stringCharacter_plain {c : Char} (hcontrol : ¬ c.toNat < 0x20) (hslash : c ≠ '\\')
    (hquote : c ≠ '"') (cs : List Char) : stringCharacter (c :: cs) = some (c, cs) := by
  unfold stringCharacter
  split <;> simp_all

/-- An escaped character is read as the character, and a quote does not stand at its front. -/
theorem stringCharacter_escape (c : Char) (cs : List Char) :
    stringCharacter (escape c ++ cs) = some (c, cs) ∧ ∀ rest, escape c ++ cs ≠ '"' :: rest := by
  unfold escape
  split
  · rename_i letter x hfind
    have hx : x = c := by simpa using List.find?_some hfind
    subst hx
    exact ⟨stringCharacter_letter (List.mem_of_find?_eq_some hfind) cs, by simp⟩
  · rename_i hfind
    have hplain : ∀ p ∈ letterEscapes, p.2 ≠ c := by
      intro p hp
      simpa using List.find?_eq_none.mp hfind p hp
    split
    · rename_i hcontrol
      exact ⟨unicodeEscape_control hcontrol cs, by simp⟩
    · rename_i hcontrol
      have hslash : c ≠ '\\' := (hplain ('\\', '\\') (by decide)).symm
      have hquote : c ≠ '"' := (hplain ('"', '"') (by decide)).symm
      exact ⟨stringCharacter_plain hcontrol hslash hquote cs, by simp [hquote]⟩

theorem escape_ne_nil (c : Char) : escape c ≠ [] := by
  unfold escape
  split
  · simp
  · split <;> simp

theorem stringRest_escape (c : Char) (cs : List Char) :
    stringRest (escape c ++ cs) = (stringRest cs).map fun (s, rest) => (c :: s, rest) := by
  obtain ⟨hread, hquote⟩ := stringCharacter_escape c cs
  have hpos : 0 < (escape c).length := List.length_pos_iff.mpr (escape_ne_nil c)
  have hlen : cs.length < (escape c ++ cs).length := by
    rw [List.length_append]
    omega
  rw [stringRest.eq_def]
  split
  · exact absurd ‹_› (hquote _)
  · simp only [hread, if_pos hlen]

theorem stringRest_flatMap_escape (s cs : List Char) :
    stringRest (s.flatMap escape ++ '"' :: cs) = some (s, cs) := by
  induction s with
  | nil => simp [stringRest]
  | cons c s ih =>
    rw [List.flatMap_cons, List.append_assoc, stringRest_escape, ih]
    rfl

theorem readString_writeString (s : String) (cs : List Char) :
    readString (writeString s ++ cs) = some (s, cs) := by
  have hrest : stringRest (s.toList.flatMap escape ++ '"' :: cs) = some (s.toList, cs) :=
    stringRest_flatMap_escape s.toList cs
  simp only [writeString, List.cons_append, List.append_assoc, List.nil_append, readString, hrest,
    Option.map_some, String.ofList_toList]

end ColumnAlgebra.Json
