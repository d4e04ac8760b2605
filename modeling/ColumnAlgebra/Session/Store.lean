import ColumnAlgebra.Operation

/-!
# Named columns

A store holds columns by name. A term may take its columns from the store.
-/

namespace ColumnAlgebra
set_option autoImplicit false

structure Store (α : Type) where
  entries : List (String × Column α)

namespace Store

variable {α : Type}

def empty : Store α := ⟨[]⟩

def find? (s : Store α) (name : String) : Option (Column α) := s.entries.lookup name

def erase (s : Store α) (name : String) : Store α := ⟨s.entries.filter (·.1 != name)⟩

def insert (s : Store α) (name : String) (c : Column α) : Store α :=
  ⟨(name, c) :: (s.erase name).entries⟩

@[simp] theorem find?_insert (s : Store α) (name : String) (c : Column α) :
    (s.insert name c).find? name = some c := by simp [insert, find?]

theorem find?_erase_of_ne (s : Store α) {name other : String} (h : other ≠ name) :
    (s.erase name).find? other = s.find? other := by
  cases s with | mk entries =>
  induction entries with
  | nil => rfl
  | cons e rest ih =>
    obtain ⟨k, c⟩ := e
    simp only [erase, find?, List.filter_cons] at ih ⊢
    by_cases hk : k = name
    · subst hk
      have hne : (other == k) = false := by simpa using h
      simp [List.lookup_cons, hne, ih]
    · by_cases ho : other = k
      · simp [hk, ho]
      · have hne : (other == k) = false := by simpa using ho
        simp [hk, List.lookup_cons, hne, ih]

theorem find?_insert_of_ne (s : Store α) {name other : String} (c : Column α) (h : other ≠ name) :
    (s.insert name c).find? other = s.find? other := by
  have hne : (other == name) = false := by simpa using h
  rw [← s.find?_erase_of_ne h]
  simp [insert, find?, List.lookup_cons, hne]

end Store

inductive ColumnRef (α : Type) where
  | inline (c : Column α)
  | named (name : String)

inductive TermRef (α : Type) where
  | nullable (s : Nullable α)
  | element (c : ColumnRef α) (i : SlotIndex) (passing : Passing := .given)
  | column (c : ColumnRef α) (passing : Passing := .given)
  | literal (l : Literal α)

variable {α : Type}

def ColumnRef.resolve? (s : Store α) : ColumnRef α → Option (Column α)
  | inline c => some c
  | named name => s.find? name

def TermRef.resolve? (s : Store α) : TermRef α → Option (Term α)
  | nullable x => some (.operand (.nullable x))
  | element c i passing => (c.resolve? s).map fun c => .operand (.handle (c.handle i) passing)
  | column c passing => (c.resolve? s).map fun c => .operand (.column c passing)
  | literal l => some (.literal l)

end ColumnAlgebra
