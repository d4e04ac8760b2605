import ColumnAlgebra.Proofs.Json.RoundTrip
import ColumnAlgebra.Proofs.Json.StringGrammar

/-!
# A text spells one value

The first character tells what kind of value a text spells, strings are read in one way only, and a
number goes as far as its characters do. By induction over the spelling two values at the front of one
text are then the same and leave the same rest.
-/

namespace ColumnAlgebra.Json
set_option autoImplicit false

section Spaces

theorem isSpace_eq_true_iff {c : Char} : isSpace c = true ↔ c ∈ [' ', '\n', '\r', '\t'] := by
  simp only [isSpace, Bool.or_eq_true, decide_eq_true_eq, List.mem_cons, List.not_mem_nil, or_false]
  tauto

theorem spaces_skipSpace (cs : List Char) : Spaces cs (skipSpace cs) := by
  induction cs with
  | nil => exact .nil []
  | cons c cs ih =>
    cases hc : isSpace c with
    | false =>
      rw [skipSpace_of_not_isSpace hc]
      exact .nil _
    | true =>
      have hskip : skipSpace (c :: cs) = skipSpace cs := by simp [skipSpace, hc]
      rw [hskip]
      exact .cons (isSpace_eq_true_iff.mp hc) ih

theorem Spaces.trans {cs cs' rest : List Char} (h : Spaces cs cs') (h' : Spaces cs' rest) :
    Spaces cs rest := by
  induction h with
  | nil => exact h'
  | cons space _ ih => exact .cons space (ih h')

theorem Spaces.skipSpace_eq {cs rest : List Char} (h : Spaces cs rest) :
    skipSpace cs = skipSpace rest := by
  induction h with
  | nil => rfl
  | cons space _ ih => simpa [skipSpace, isSpace_eq_true_iff.mpr space] using ih

theorem Spaces.length_le {cs rest : List Char} (h : Spaces cs rest) : rest.length ≤ cs.length := by
  induction h with
  | nil => exact Nat.le_refl _
  | cons _ _ ih => exact Nat.le_succ_of_le ih

/-- White space in front of one text ends at one place. -/
theorem Spaces.cons_unique {c d : Char} {cs ds text : List Char} (h : Spaces text (c :: cs))
    (hc : isSpace c = false) (h' : Spaces text (d :: ds)) (hd : isSpace d = false) :
    c = d ∧ cs = ds := by
  have heq : c :: cs = d :: ds := by
    rw [← skipSpace_of_not_isSpace hc, ← skipSpace_of_not_isSpace hd, ← h.skipSpace_eq,
      ← h'.skipSpace_eq]
  exact List.cons.inj heq

end Spaces

section Numbers

/-- The characters a number may go on with. -/
def literalCharacter (c : Char) : Bool := c.isDigit || c ∈ ['.', 'e', 'E', '+', '-']

/-- No character stands at the front of the text that a number could go on with. -/
def LiteralEnds (cs : List Char) : Prop := cs.takeWhile literalCharacter = []

theorem LiteralEnds.numberEnds {cs : List Char} (h : LiteralEnds cs) : NumberEnds cs := by
  cases cs with
  | nil => rfl
  | cons c cs =>
    have hc : literalCharacter c = false := by
      simpa [LiteralEnds, List.takeWhile_cons] using h
    have hdigit : c.isDigit = false := (Bool.or_eq_false_iff.mp hc).1
    simp [NumberEnds, hdigit]

theorem literalCharacter_of_isDigit {c : Char} (h : c.isDigit = true) : literalCharacter c = true := by
  simp [literalCharacter, h]

theorem IsFraction.literal {cs : List Char} (h : IsFraction cs) :
    ∀ c ∈ cs, literalCharacter c = true := by
  cases h with
  | none => simp
  | digits _ isDigit =>
    intro c hc
    rcases List.mem_cons.mp hc with rfl | hc
    · rfl
    · exact literalCharacter_of_isDigit (isDigit c hc)

theorem IsExponent.literal {cs : List Char} (h : IsExponent cs) :
    ∀ c ∈ cs, literalCharacter c = true := by
  cases h with
  | none => simp
  | @digits e sign ds letter signs _ isDigit =>
    have hletters : ['e', 'E'].all literalCharacter = true := rfl
    have hsigns : [[], ['+'], ['-']].all (List.all · literalCharacter) = true := rfl
    have hsign : sign.all literalCharacter = true := List.all_eq_true.mp hsigns sign signs
    intro c hc
    rcases List.mem_cons.mp hc with rfl | hc
    · exact List.all_eq_true.mp hletters c letter
    · rcases List.mem_append.mp hc with hc | hc
      · exact List.all_eq_true.mp hsign c hc
      · exact literalCharacter_of_isDigit (isDigit c hc)

/-- What follows the whole part of a number does not begin with a digit. -/
theorem numberEnds_suffix {fraction exponent rest : List Char} (hf : IsFraction fraction)
    (he : IsExponent exponent) (hrest : NumberEnds rest) :
    NumberEnds (fraction ++ exponent ++ rest) := by
  cases hf with
  | digits => rfl
  | none =>
    cases he with
    | none => exact hrest
    | @digits e _ _ letter =>
      have hletters : ['e', 'E'].all (!Char.isDigit ·) = true := rfl
      have hletter : e.isDigit = false := by simpa using List.all_eq_true.mp hletters e letter
      simp [NumberEnds, hletter]

theorem IsDigits.head {ds : List Char} {n : Nat} (h : IsDigits ds n) :
    ∃ d tail, ds = d :: tail ∧ d.isDigit = true := by
  obtain ⟨d, tail, rfl⟩ := List.exists_cons_of_ne_nil h.ne_nil
  exact ⟨d, tail, rfl, h.isDigit d List.mem_cons_self⟩

theorem minus_sign {ds : List Char} {n : Nat} (h : IsDigits ds n) (negative : Bool) (cs : List Char) :
    minus ((if negative then ['-'] else []) ++ (ds ++ cs)) = (negative, ds ++ cs) := by
  obtain ⟨d, tail, rfl, hd⟩ := h.head
  cases negative with
  | true => rfl
  | false =>
    unfold minus
    split
    · rename_i heq
      exact absurd (List.cons.inj heq).1 (Decimal.ne_minus_of_isDigit hd)
    · rfl

/-- The literal at the front of a text, as far as its characters go. -/
def scanLiteral (cs : List Char) : NumberLiteral × List Char :=
  let (negative, cs) := minus cs
  let suffix := cs.dropWhile Char.isDigit
  (⟨negative, Nat.ofDigitChars 10 (cs.takeWhile Char.isDigit) 0, suffix.takeWhile literalCharacter⟩,
    suffix.dropWhile literalCharacter)

theorem NumberText.scan {cs rest : List Char} {l : NumberLiteral} (h : NumberText cs l rest)
    (hends : LiteralEnds rest) : scanLiteral cs = (l, rest) := by
  cases h with
  | @mk ds fraction exponent rest n negative digits isFraction isExponent =>
    obtain ⟨hwhole, hsuffix⟩ :=
      takeWhile_append_stop digits.isDigit
        (numberEnds_suffix isFraction isExponent hends.numberEnds)
    have hliteral : ∀ c ∈ fraction ++ exponent, literalCharacter c = true := by
      intro c hc
      exact (List.mem_append.mp hc).elim (isFraction.literal c) (isExponent.literal c)
    obtain ⟨htake, hdrop⟩ := takeWhile_append_stop hliteral hends
    simp only [scanLiteral, minus_sign digits, hwhole, hsuffix, htake, hdrop, digits.value]

theorem NumberText.head {cs rest : List Char} {l : NumberLiteral} (h : NumberText cs l rest) :
    ∃ c tail, cs = c :: tail ∧ (c = '-' ∨ c.isDigit = true) := by
  cases h with
  | mk negative digits =>
    obtain ⟨d, tail, rfl, hd⟩ := digits.head
    cases negative with
    | true => exact ⟨'-', _, rfl, .inl rfl⟩
    | false => exact ⟨d, _, rfl, .inr hd⟩

theorem NumberText.length_lt {cs rest : List Char} {l : NumberLiteral} (h : NumberText cs l rest) :
    rest.length < cs.length := by
  cases h with
  | mk negative digits =>
    have hpos := List.length_pos_iff.mpr digits.ne_nil
    simp only [List.length_append]
    omega

end Numbers

section Values

/-- One character for each kind of value. -/
def Tree.initial : Tree → Char
  | .null => 'n'
  | .bool _ => 't'
  | .number _ => '0'
  | .string _ => '"'
  | .array _ => '['
  | .object _ => '\x7b'

/-- The kind of a value whose spelling begins with the character. -/
def initialOf (c : Char) : Char :=
  if c = '-' ∨ c.isDigit = true then '0' else if c = 'f' then 't' else c

theorem ValueText.head {cs rest : List Char} {j : Tree} (h : ValueText cs j rest) :
    ∃ c tail, cs = c :: tail ∧ initialOf c = j.initial := by
  cases h with
  | null => exact ⟨'n', _, rfl, rfl⟩
  | boolTrue => exact ⟨'t', _, rfl, rfl⟩
  | boolFalse => exact ⟨'f', _, rfl, rfl⟩
  | number text =>
    obtain ⟨c, tail, rfl, hc⟩ := text.head
    exact ⟨c, tail, rfl, if_pos hc⟩
  | string text => cases text with | mk => exact ⟨'"', _, rfl, rfl⟩
  | emptyArray => exact ⟨'[', _, rfl, rfl⟩
  | array => exact ⟨'[', _, rfl, rfl⟩
  | emptyObject => exact ⟨'\x7b', _, rfl, rfl⟩
  | object => exact ⟨'\x7b', _, rfl, rfl⟩

mutual

theorem ValueText.length_lt {cs rest : List Char} {j : Tree} :
    ValueText cs j rest → rest.length < cs.length
  | .null rest => by
    simp only [List.length_cons]
    omega
  | .boolTrue rest => by
    simp only [List.length_cons]
    omega
  | .boolFalse rest => by
    simp only [List.length_cons]
    omega
  | .number text => text.length_lt
  | .string text => text.length_lt
  | .emptyArray close => Nat.lt_succ_of_lt close.length_le
  | .array elements => Nat.lt_succ_of_lt (ElementsText.length_lt elements)
  | .emptyObject close => Nat.lt_succ_of_lt close.length_le
  | .object members => Nat.lt_succ_of_lt (MembersText.length_lt members)

theorem ElementsText.length_lt {cs rest : List Char} {es : List Tree} :
    ElementsText cs es rest → rest.length < cs.length
  | .last spaces text close => by
    have hspaces := spaces.length_le
    have htext := ValueText.length_lt text
    have hclose := close.length_le
    rw [List.length_cons] at hclose
    omega
  | .cons spaces text comma more => by
    have hspaces := spaces.length_le
    have htext := ValueText.length_lt text
    have hcomma := comma.length_le
    have hmore := ElementsText.length_lt more
    rw [List.length_cons] at hcomma
    omega

theorem MembersText.length_lt {cs rest : List Char} {ms : List (String × Tree)} :
    MembersText cs ms rest → rest.length < cs.length
  | .last before name colon spaces text close => by
    have hbefore := before.length_le
    have hname := name.length_lt
    have hcolon := colon.length_le
    have hspaces := spaces.length_le
    have htext := ValueText.length_lt text
    have hclose := close.length_le
    simp only [List.length_cons] at hcolon hclose
    omega
  | .cons before name colon spaces text comma more => by
    have hbefore := before.length_le
    have hname := name.length_lt
    have hcolon := colon.length_le
    have hspaces := spaces.length_le
    have htext := ValueText.length_lt text
    have hcomma := comma.length_le
    have hmore := MembersText.length_lt more
    simp only [List.length_cons] at hcolon hcomma
    omega

end

theorem ValueText.initial_unique {cs rest rest' : List Char} {j j' : Tree} (h : ValueText cs j rest)
    (h' : ValueText cs j' rest') : j.initial = j'.initial := by
  obtain ⟨c, tail, rfl, hc⟩ := h.head
  obtain ⟨c', tail', heq, hc'⟩ := h'.head
  rw [← hc, ← hc', (List.cons.inj heq).1]

/-- The characters between the parts of arrays and objects. -/
def isDelimiter (c : Char) : Bool := c ∈ [',', ':', ']', '\x7d']

theorem isDelimiter_cases {d : Char} (hd : isDelimiter d = true) :
    d = ',' ∨ d = ':' ∨ d = ']' ∨ d = '\x7d' := by
  simpa [isDelimiter] using hd

theorem isSpace_of_isDelimiter {d : Char} (hd : isDelimiter d = true) : isSpace d = false := by
  rcases isDelimiter_cases hd with rfl | rfl | rfl | rfl <;> rfl

def initials : List Char := ['n', 't', '0', '"', '[', '\x7b']

theorem Tree.initial_mem (j : Tree) : j.initial ∈ initials := by
  cases j <;> simp [Tree.initial, initials]

theorem initialOf_of_isSpace {c : Char} (hc : isSpace c = true) : initialOf c ∉ initials := by
  have hall : [' ', '\n', '\r', '\t'].all (initialOf · ∉ initials) = true := rfl
  exact of_decide_eq_true (List.all_eq_true.mp hall c (isSpace_eq_true_iff.mp hc))

theorem initialOf_of_isDelimiter {d : Char} (hd : isDelimiter d = true) : initialOf d ∉ initials := by
  have hall : [',', ':', ']', '\x7d'].all (initialOf · ∉ initials) = true := rfl
  exact of_decide_eq_true (List.all_eq_true.mp hall d (of_decide_eq_true hd))

/-- A value begins neither with white space nor with a delimiter. -/
theorem ValueText.head_plain {c : Char} {cs rest : List Char} {j : Tree}
    (h : ValueText (c :: cs) j rest) : isSpace c = false ∧ isDelimiter c = false := by
  obtain ⟨c', tail, heq, hc⟩ := h.head
  obtain ⟨rfl, rfl⟩ := List.cons.inj heq
  have hinitial : initialOf c ∈ initials := hc ▸ j.initial_mem
  constructor
  · apply Bool.eq_false_iff.mpr
    intro hspace
    exact initialOf_of_isSpace hspace hinitial
  · apply Bool.eq_false_iff.mpr
    intro hdelimiter
    exact initialOf_of_isDelimiter hdelimiter hinitial

theorem ValueText.skipSpace_eq {cs rest : List Char} {j : Tree} (h : ValueText cs j rest) :
    skipSpace cs = cs := by
  obtain ⟨c, tail, rfl, -⟩ := h.head
  exact skipSpace_of_not_isSpace h.head_plain.1 tail

/-- After white space two values begin at one place. -/
theorem Spaces.start_unique {cs cs₁ cs₁' rest rest' : List Char} {j j' : Tree} (spaces : Spaces cs cs₁)
    (text : ValueText cs₁ j rest) (spaces' : Spaces cs cs₁') (text' : ValueText cs₁' j' rest') :
    cs₁ = cs₁' := by
  rw [← text.skipSpace_eq, ← text'.skipSpace_eq, ← spaces.skipSpace_eq, ← spaces'.skipSpace_eq]

/-- A number ends where nothing stands that it could go on with; other values end by themselves. -/
def Tree.EndsAt : Tree → List Char → Prop
  | .number _, rest => LiteralEnds rest
  | _, _ => True

theorem Tree.endsAt_of_literalEnds (j : Tree) {rest : List Char} (h : LiteralEnds rest) :
    j.EndsAt rest := by
  cases j with
  | number => exact h
  | _ => trivial

theorem literalEnds_delimiter {d : Char} (hd : isDelimiter d = true) (rest : List Char) :
    LiteralEnds (d :: rest) := by
  rcases isDelimiter_cases hd with rfl | rfl | rfl | rfl <;> rfl

theorem Spaces.literalEnds {cs rest : List Char} (h : Spaces cs rest) (hrest : LiteralEnds rest) :
    LiteralEnds cs := by
  cases h with
  | nil => exact hrest
  | cons space =>
    simp only [List.mem_cons, List.not_mem_nil, or_false] at space
    rcases space with rfl | rfl | rfl | rfl <;> rfl

/-- No value stands where white space leads to a delimiter. -/
theorem ValueText.not_delimiter {d : Char} {cs cs₁ rest rest' : List Char} {j : Tree}
    (h : ValueText cs₁ j rest) (hspaces : Spaces cs cs₁) (hd : isDelimiter d = true) :
    ¬ Spaces cs (d :: rest') := by
  intro hclose
  obtain ⟨c, tail, rfl, -⟩ := h.head
  obtain ⟨hspace, hdelimiter⟩ := h.head_plain
  obtain ⟨rfl, -⟩ := hspaces.cons_unique hspace hclose (isSpace_of_isDelimiter hd)
  exact Bool.eq_false_iff.mp hdelimiter hd

theorem ElementsText.not_close {cs rest rest' : List Char} {es : List Tree}
    (h : ElementsText cs es rest) : ¬ Spaces cs (']' :: rest') := by
  cases h with
  | last spaces text => exact text.not_delimiter spaces rfl
  | cons spaces text => exact text.not_delimiter spaces rfl

theorem MembersText.not_close {cs rest rest' : List Char} {ms : List (String × Tree)}
    (h : MembersText cs ms rest) : ¬ Spaces cs ('\x7d' :: rest') := by
  cases h with
  | last spaces name => exact (ValueText.string name).not_delimiter spaces rfl
  | cons spaces name => exact (ValueText.string name).not_delimiter spaces rfl

/-- Two spellings of an item, with white space before it and a delimiter behind it, agree in the item, the
delimiter and the rest, provided the first leaves no choice of the value where it stands. -/
theorem item_unique {d d' : Char} {e e' : Tree} {cs cs₁ cs₁' cs₂ cs₂' rest rest' : List Char}
    (spaces : Spaces cs cs₁) (text : ValueText cs₁ e cs₂) (close : Spaces cs₂ (d :: rest))
    (spaces' : Spaces cs cs₁') (text' : ValueText cs₁' e' cs₂') (close' : Spaces cs₂' (d' :: rest'))
    (hd : isDelimiter d = true) (hd' : isDelimiter d' = true)
    (unique : ∀ {e' cs₂'}, ValueText cs₁ e' cs₂' → e.EndsAt cs₂ → e'.EndsAt cs₂' → e = e' ∧ cs₂ = cs₂') :
    e = e' ∧ d = d' ∧ rest = rest' := by
  obtain rfl := spaces.start_unique text spaces' text'
  have hends : LiteralEnds cs₂ := close.literalEnds (literalEnds_delimiter hd rest)
  have hends' : LiteralEnds cs₂' := close'.literalEnds (literalEnds_delimiter hd' rest')
  obtain ⟨rfl, rfl⟩ := unique text' (e.endsAt_of_literalEnds hends) (e'.endsAt_of_literalEnds hends')
  exact ⟨rfl, close.cons_unique (isSpace_of_isDelimiter hd) close' (isSpace_of_isDelimiter hd')⟩

theorem StringText.unique {cs rest rest' : List Char} {s s' : String} (h : StringText cs s rest)
    (h' : StringText cs s' rest') : s = s' ∧ rest = rest' := by
  have heq : some (s, rest) = some (s', rest') := by
    rw [← readString_eq_some_iff.mpr h, ← readString_eq_some_iff.mpr h']
  simpa using heq

theorem StringText.value_unique {cs rest rest' : List Char} {s : String} {j : Tree}
    (h : StringText cs s rest) (h' : ValueText cs j rest') : .string s = j ∧ rest = rest' := by
  cases j with
  | string s' =>
    cases h' with
    | string text =>
      obtain ⟨rfl, rfl⟩ := h.unique text
      exact ⟨rfl, rfl⟩
  | _ => exact absurd ((ValueText.string h).initial_unique h') (by simp [Tree.initial])

theorem NumberText.value_unique {cs rest rest' : List Char} {l : NumberLiteral} {j : Tree}
    (h : NumberText cs l rest) (h' : ValueText cs j rest') (hends : LiteralEnds rest)
    (hends' : j.EndsAt rest') : .number l = j ∧ rest = rest' := by
  cases j with
  | number l' =>
    cases h' with
    | number text =>
      have heq : (l, rest) = (l', rest') := (h.scan hends).symm.trans (text.scan hends')
      cases heq
      exact ⟨rfl, rfl⟩
  | _ => exact absurd ((ValueText.number h).initial_unique h') (by simp [Tree.initial])

/-- The key of a member and what follows its colon. -/
theorem key_unique {key key' : String} {cs cs₁ cs₁' cs₂ cs₂' rest rest' : List Char}
    (spaces : Spaces cs cs₁) (name : StringText cs₁ key cs₂) (colon : Spaces cs₂ (':' :: rest))
    (spaces' : Spaces cs cs₁') (name' : StringText cs₁' key' cs₂')
    (colon' : Spaces cs₂' (':' :: rest')) : key = key' ∧ rest = rest' := by
  obtain ⟨heq, -, hrest⟩ :=
    item_unique spaces (.string name) colon spaces' (.string name') colon' rfl rfl
      (fun text _ _ => name.value_unique text)
  exact ⟨Tree.string.inj heq, hrest⟩

-- The induction is on the first spelling. The first character gives the second the same kind, so that
-- taking it apart leaves the constructors of that kind only.
mutual

/-- The value at the front of a text and what follows it are the only ones, if numbers go as far as they
can. -/
theorem ValueText.unique {cs rest rest' : List Char} {j j' : Tree} :
    ValueText cs j rest → ValueText cs j' rest' → j.EndsAt rest → j'.EndsAt rest' →
      j = j' ∧ rest = rest'
  | .null rest, h', _, _ => by
    cases j' with
    | null =>
      cases h'
      exact ⟨rfl, rfl⟩
    | _ => exact absurd ((ValueText.null rest).initial_unique h') (by simp [Tree.initial])
  | .boolTrue rest, h', _, _ => by
    cases j' with
    | bool =>
      cases h'
      exact ⟨rfl, rfl⟩
    | _ => exact absurd ((ValueText.boolTrue rest).initial_unique h') (by simp [Tree.initial])
  | .boolFalse rest, h', _, _ => by
    cases j' with
    | bool =>
      cases h'
      exact ⟨rfl, rfl⟩
    | _ => exact absurd ((ValueText.boolFalse rest).initial_unique h') (by simp [Tree.initial])
  | .number text, h', hends, hends' => text.value_unique h' hends hends'
  | .string text, h', _, _ => text.value_unique h'
  | .emptyArray close, h', _, _ => by
    cases j' with
    | array =>
      cases h' with
      | emptyArray close' =>
        obtain ⟨-, rfl⟩ := close.cons_unique rfl close' rfl
        exact ⟨rfl, rfl⟩
      | array elements' => exact absurd close elements'.not_close
    | _ => exact absurd ((ValueText.emptyArray close).initial_unique h') (by simp [Tree.initial])
  | .array elements, h', _, _ => by
    cases j' with
    | array =>
      cases h' with
      | emptyArray close' => exact absurd close' elements.not_close
      | array elements' =>
        obtain ⟨rfl, rfl⟩ := ElementsText.unique elements elements'
        exact ⟨rfl, rfl⟩
    | _ => exact absurd ((ValueText.array elements).initial_unique h') (by simp [Tree.initial])
  | .emptyObject close, h', _, _ => by
    cases j' with
    | object =>
      cases h' with
      | emptyObject close' =>
        obtain ⟨-, rfl⟩ := close.cons_unique rfl close' rfl
        exact ⟨rfl, rfl⟩
      | object members' => exact absurd close members'.not_close
    | _ => exact absurd ((ValueText.emptyObject close).initial_unique h') (by simp [Tree.initial])
  | .object members, h', _, _ => by
    cases j' with
    | object =>
      cases h' with
      | emptyObject close' => exact absurd close' members.not_close
      | object members' =>
        obtain ⟨rfl, rfl⟩ := MembersText.unique members members'
        exact ⟨rfl, rfl⟩
    | _ => exact absurd ((ValueText.object members).initial_unique h') (by simp [Tree.initial])

theorem ElementsText.unique {cs rest rest' : List Char} {es es' : List Tree} :
    ElementsText cs es rest → ElementsText cs es' rest' → es = es' ∧ rest = rest'
  | .last spaces text close, h' => by
    cases h' with
    | last spaces' text' close' =>
      obtain ⟨rfl, -, rfl⟩ := item_unique spaces text close spaces' text' close' rfl rfl
        (ValueText.unique text)
      exact ⟨rfl, rfl⟩
    | cons spaces' text' comma' =>
      obtain ⟨-, hclose, -⟩ := item_unique spaces text close spaces' text' comma' rfl rfl
        (ValueText.unique text)
      exact absurd hclose (by decide)
  | .cons spaces text comma more, h' => by
    cases h' with
    | last spaces' text' close' =>
      obtain ⟨-, hclose, -⟩ := item_unique spaces text comma spaces' text' close' rfl rfl
        (ValueText.unique text)
      exact absurd hclose (by decide)
    | cons spaces' text' comma' more' =>
      obtain ⟨rfl, -, rfl⟩ := item_unique spaces text comma spaces' text' comma' rfl rfl
        (ValueText.unique text)
      obtain ⟨rfl, rfl⟩ := ElementsText.unique more more'
      exact ⟨rfl, rfl⟩

theorem MembersText.unique {cs rest rest' : List Char} {ms ms' : List (String × Tree)} :
    MembersText cs ms rest → MembersText cs ms' rest' → ms = ms' ∧ rest = rest'
  | .last before name colon spaces text close, h' => by
    cases h' with
    | last before' name' colon' spaces' text' close' =>
      obtain ⟨rfl, rfl⟩ := key_unique before name colon before' name' colon'
      obtain ⟨rfl, -, rfl⟩ := item_unique spaces text close spaces' text' close' rfl rfl
        (ValueText.unique text)
      exact ⟨rfl, rfl⟩
    | cons before' name' colon' spaces' text' comma' =>
      obtain ⟨rfl, rfl⟩ := key_unique before name colon before' name' colon'
      obtain ⟨-, hclose, -⟩ := item_unique spaces text close spaces' text' comma' rfl rfl
        (ValueText.unique text)
      exact absurd hclose (by decide)
  | .cons before name colon spaces text comma more, h' => by
    cases h' with
    | last before' name' colon' spaces' text' close' =>
      obtain ⟨rfl, rfl⟩ := key_unique before name colon before' name' colon'
      obtain ⟨-, hclose, -⟩ := item_unique spaces text comma spaces' text' close' rfl rfl
        (ValueText.unique text)
      exact absurd hclose (by decide)
    | cons before' name' colon' spaces' text' comma' more' =>
      obtain ⟨rfl, rfl⟩ := key_unique before name colon before' name' colon'
      obtain ⟨rfl, -, rfl⟩ := item_unique spaces text comma spaces' text' comma' rfl rfl
        (ValueText.unique text)
      obtain ⟨rfl, rfl⟩ := MembersText.unique more more'
      exact ⟨rfl, rfl⟩

end

/-- A document is a document of one value only. -/
theorem DocumentText.unique {text : String} {j j' : Tree} (h : DocumentText text j)
    (h' : DocumentText text j') : j = j' := by
  obtain ⟨cs, rest, before, value, after⟩ := h
  obtain ⟨cs', rest', before', value', after'⟩ := h'
  obtain rfl := before.start_unique value before' value'
  exact (value.unique value' (j.endsAt_of_literalEnds (after.literalEnds rfl))
    (j'.endsAt_of_literalEnds (after'.literalEnds rfl))).1

end Values
end ColumnAlgebra.Json
