import ColumnAlgebra.Log

/-!
# Functions with a state of their own

A call of such a function starts from a state, and has an outcome and the state that it leaves behind; a
call that fails leaves a state behind as well. Main statement: calls made one after the other compose as
a lawful monad, in which nothing is called after a failure.
-/

namespace ColumnAlgebra
set_option autoImplicit false

structure Stateful (σ ε α : Type) where
  run : σ → Outcome ε α × σ

namespace Stateful

variable {σ ε α β : Type}

def ok (a : α) : Stateful σ ε α := ⟨fun st => (.ok a, st)⟩

def andThen (x : Stateful σ ε α) (f : α → Stateful σ ε β) : Stateful σ ε β where
  run st :=
    match x.run st with
    | (⟨.ok a, log⟩, st) =>
      let (o, st) := (f a).run st
      (⟨o.result, log ++ o.log⟩, st)
    | (⟨.error e, log⟩, st) => (⟨.error e, log⟩, st)

instance : Monad (Stateful σ ε) where
  pure := ok
  bind := andThen

def recordAll (log : List LogRecord) : Stateful σ ε Unit := ⟨fun st => (⟨.ok (), log⟩, st)⟩

/-- A function without a state. -/
def ofExcept (x : Except ε α) : Stateful σ ε α := ⟨fun st => (.ofExcept x, st)⟩

theorem run_pure (a : α) (st : σ) : (pure a : Stateful σ ε α).run st = (⟨.ok a, []⟩, st) := rfl

theorem run_bind_of_ok {x : Stateful σ ε α} {st st₁ : σ} {a : α} {log : List LogRecord}
    (h : x.run st = (⟨.ok a, log⟩, st₁)) (f : α → Stateful σ ε β) :
    (x >>= f).run st =
      (⟨((f a).run st₁).1.result, log ++ ((f a).run st₁).1.log⟩, ((f a).run st₁).2) := by
  change (andThen x f).run st = _
  simp only [andThen, h]

theorem run_bind_of_error {x : Stateful σ ε α} {st st₁ : σ} {e : ε} {log : List LogRecord}
    (h : x.run st = (⟨.error e, log⟩, st₁)) (f : α → Stateful σ ε β) :
    (x >>= f).run st = (⟨.error e, log⟩, st₁) := by
  change (andThen x f).run st = _
  simp only [andThen, h]

theorem run_cases (x : Stateful σ ε α) (st : σ) :
    (∃ a log st₁, x.run st = (⟨.ok a, log⟩, st₁)) ∨
      ∃ e log st₁, x.run st = (⟨.error e, log⟩, st₁) := by
  rcases h : x.run st with ⟨⟨e | a, log⟩, st₁⟩
  · exact Or.inr ⟨e, log, st₁, rfl⟩
  · exact Or.inl ⟨a, log, st₁, rfl⟩

theorem ext_run {x y : Stateful σ ε α} (h : ∀ st, x.run st = y.run st) : x = y :=
  congrArg mk (funext h)

instance : LawfulMonad (Stateful σ ε) := LawfulMonad.mk' (Stateful σ ε)
  (by
    intro α x
    apply ext_run
    intro st
    rcases x.run_cases st with ⟨a, log, st₁, h⟩ | ⟨e, log, st₁, h⟩
    · refine (run_bind_of_ok h _).trans (Eq.trans ?_ h.symm)
      exact congrArg (fun records => ((⟨.ok a, records⟩ : Outcome _ _), st₁)) log.append_nil
    · exact (run_bind_of_error h _).trans h.symm)
  (by
    intro α β a f
    apply ext_run
    intro st
    rw [run_bind_of_ok (run_pure a st), List.nil_append])
  (by
    intro α β γ x f g
    apply ext_run
    intro st
    rcases x.run_cases st with ⟨a, log, st₁, h⟩ | ⟨e, log, st₁, h⟩
    · rw [run_bind_of_ok h]
      rcases (f a).run_cases st₁ with ⟨b, log₁, st₂, h₁⟩ | ⟨e, log₁, st₂, h₁⟩
      · have hxf : (x >>= f).run st = (⟨.ok b, log ++ log₁⟩, st₂) := by rw [run_bind_of_ok h, h₁]
        rw [run_bind_of_ok hxf, run_bind_of_ok h₁, List.append_assoc]
      · have hxf : (x >>= f).run st = (⟨.error e, log ++ log₁⟩, st₂) := by
          rw [run_bind_of_ok h, h₁]
        rw [run_bind_of_error hxf, run_bind_of_error h₁]
    · rw [run_bind_of_error (run_bind_of_error h f), run_bind_of_error h])

theorem run_map (g : α → β) (x : Stateful σ ε α) (st : σ) :
    (g <$> x).run st = (g <$> (x.run st).1, (x.run st).2) := by
  rw [map_eq_pure_bind]
  rcases x.run_cases st with ⟨a, log, st₁, h⟩ | ⟨e, log, st₁, h⟩
  · rw [run_bind_of_ok h, run_pure, List.append_nil, h, Outcome.map_mk_ok]
  · rw [run_bind_of_error h, h]
    rfl

theorem ofExcept_bind (x : Except ε α) (f : α → Except ε β) :
    (ofExcept (x >>= f) : Stateful σ ε β) = ofExcept x >>= fun a => ofExcept (f a) := by
  apply ext_run
  intro st
  cases x with
  | error e => rfl
  | ok a =>
    have ha : (ofExcept (.ok a) : Stateful σ ε α).run st = (⟨.ok a, []⟩, st) := rfl
    rw [run_bind_of_ok ha]
    rfl

theorem mapM_ofExcept (f : α → Except ε β) (xs : List α) :
    (xs.mapM fun x => (ofExcept (f x) : Stateful σ ε β)) = ofExcept (xs.mapM f) := by
  induction xs with
  | nil => rfl
  | cons x xs ih =>
    rw [List.mapM_cons, List.mapM_cons, ih, ofExcept_bind]
    congr
    funext y
    exact (ofExcept_bind (xs.mapM f) fun ys => pure (y :: ys)).symm

end Stateful
end ColumnAlgebra
