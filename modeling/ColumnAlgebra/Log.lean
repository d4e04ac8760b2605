/-!
# Log records and outcomes

An outcome is a result or a failure, together with the records written on the way; a failure keeps the
records that came before it. Main statement: outcomes compose as a lawful monad, so the log of a run is
the concatenation of the logs of its steps.
-/

namespace ColumnAlgebra
set_option autoImplicit false

inductive LogLevel where
  | debug
  | trace
  deriving DecidableEq

def LogLevel.name : LogLevel → String
  | debug => "DEBUG"
  | trace => "TRACE"

inductive LogRecord where
  /-- A write went past the end, or to an index that is no position. -/
  | ignoredWrite (position : Option Nat) (length : Nat)
  /-- Two columns of these lengths are combined slot by slot. -/
  | padding (left right : Nat)
  | assigningValue (length : Nat)
  | assigningNull (length : Nat)
  | clearing (length : Nat)
  deriving DecidableEq

namespace LogRecord

def level : LogRecord → LogLevel
  | ignoredWrite .. => .debug
  | _ => .trace

def positionText : Option Nat → String
  | some n => s!"Some({n})"
  | none => "None"

def text : LogRecord → String
  | ignoredWrite position length =>
    s!"ignoring write to index {positionText position} of column of length {length}"
  | padding left right => s!"null-padding column operands of lengths {left} and {right}"
  | assigningValue length => s!"assigning a value to {length} slots"
  | assigningNull length => s!"assigning null to {length} slots"
  | clearing length => s!"clearing column of length {length}"

def line (r : LogRecord) : String := r.level.name ++ " " ++ r.text

end LogRecord

structure Outcome (ε α : Type) where
  result : Except ε α
  log : List LogRecord

namespace Outcome

variable {ε α β : Type}

def ok (a : α) : Outcome ε α := ⟨.ok a, []⟩

def error (e : ε) : Outcome ε α := ⟨.error e, []⟩

def ofExcept (x : Except ε α) : Outcome ε α := ⟨x, []⟩

def record (r : LogRecord) : Outcome ε Unit := ⟨.ok (), [r]⟩

def andThen (x : Outcome ε α) (f : α → Outcome ε β) : Outcome ε β :=
  match x.result with
  | .ok a => ⟨(f a).result, x.log ++ (f a).log⟩
  | .error e => ⟨.error e, x.log⟩

instance : Monad (Outcome ε) where
  pure := ok
  bind := andThen

def mapError {δ : Type} (f : ε → δ) (x : Outcome ε α) : Outcome δ α :=
  ⟨x.result.mapError f, x.log⟩

@[simp] theorem result_ok (a : α) : (ok a : Outcome ε α).result = .ok a := rfl

@[simp] theorem log_ok (a : α) : (ok a : Outcome ε α).log = [] := rfl

@[simp] theorem result_pure (a : α) : (pure a : Outcome ε α).result = .ok a := rfl

@[simp] theorem result_ofExcept (x : Except ε α) : (ofExcept x).result = x := rfl

@[simp] theorem result_bind (x : Outcome ε α) (f : α → Outcome ε β) :
    (x >>= f).result = x.result >>= fun a => (f a).result := by
  rcases x with ⟨_ | _, _⟩ <;> rfl

@[simp] theorem result_map (f : α → β) (x : Outcome ε α) : (f <$> x).result = f <$> x.result := by
  rcases x with ⟨_ | _, _⟩ <;> rfl

@[simp] theorem log_map (f : α → β) (x : Outcome ε α) : (f <$> x).log = x.log := by
  rcases x with ⟨_ | _, _⟩ <;> simp [Functor.map, andThen, ok]

@[simp] theorem map_mk_ok (f : α → β) (a : α) (log : List LogRecord) :
    f <$> (⟨.ok a, log⟩ : Outcome ε α) = ⟨.ok (f a), log⟩ := by
  simp [Functor.map, andThen, ok]

theorem exists_of_map_eq {f : α → β} {x : Outcome ε α} {b : β} {log : List LogRecord}
    (h : f <$> x = ⟨.ok b, log⟩) : ∃ a, x = ⟨.ok a, log⟩ ∧ f a = b := by
  rcases x with ⟨e | a, records⟩
  · cases h
  · rw [map_mk_ok] at h
    cases h
    exact ⟨a, rfl, rfl⟩

theorem exists_of_result_bind_eq_ok {x : Outcome ε α} {f : α → Outcome ε β} {b : β}
    (h : (x >>= f).result = .ok b) : ∃ a, x.result = .ok a ∧ (f a).result = .ok b := by
  rcases x with ⟨e | a, log⟩
  · cases h
  · exact ⟨a, rfl, h⟩

theorem ofExcept_map (f : α → β) (x : Except ε α) : ofExcept (f <$> x) = f <$> ofExcept x := by
  cases x <;> rfl

instance : LawfulMonad (Outcome ε) := LawfulMonad.mk' (Outcome ε)
  (by
    rintro α ⟨⟨⟩ | ⟨⟩, log⟩ <;> simp [Functor.map, andThen, Function.comp, ok])
  (by
    intro α β a f
    simp [pure, bind, andThen, ok])
  (by
    rintro α β γ ⟨⟨⟩ | ⟨a⟩, log⟩ f g
    · rfl
    · simp only [bind, andThen]
      cases (f a).result <;> simp)

end Outcome
end ColumnAlgebra
