import ColumnAlgebra.Proofs.Spread
import ColumnAlgebra.Stateful

/-!
# Padding and the calls of a joining function

Two columns are joined by a function that is called once for each position up to the longer length, in
order, and that may keep a state, write records and fail. Main statement: which calls are made, and that
extending the shorter column with empty slots first changes nothing but the one record on the padding;
the operators and the methods of two columns follow the same law.
-/

namespace ColumnAlgebra
set_option autoImplicit false

variable {σ ε α β γ : Type}

/-- The calls made for a list of arguments: in order, each from the state that the one before it left,
and none after one that fails. Relates the arguments and the first state to the arguments of the calls
that are made, their outcome as a whole and the last state. -/
inductive Calls (f : α → β → Stateful σ ε γ) :
    List (α × β) → σ → List (α × β) → Outcome ε (List γ) → σ → Prop where
  | nil (st : σ) : Calls f [] st [] (.ok []) st
  | cons {x : α} {y : β} {z : γ} {rest made : List (α × β)} {st st₁ st₂ : σ} {log : List LogRecord}
      {o : Outcome ε (List γ)} (call : (f x y).run st = (⟨.ok z, log⟩, st₁))
      (later : Calls f rest st₁ made o st₂) :
      Calls f ((x, y) :: rest) st ((x, y) :: made) ⟨(z :: ·) <$> o.result, log ++ o.log⟩ st₂
  | fail {x : α} {y : β} {rest : List (α × β)} {st st₁ : σ} {e : ε} {log : List LogRecord}
      (call : (f x y).run st = (⟨.error e, log⟩, st₁)) :
      Calls f ((x, y) :: rest) st [(x, y)] ⟨.error e, log⟩ st₁

namespace Calls

variable {f : α → β → Stateful σ ε γ} {args made : List (α × β)} {st st₁ : σ}
  {o : Outcome ε (List γ)}

theorem exists_of_mapM (f : α → β → Stateful σ ε γ) (args : List (α × β)) (st : σ) :
    ∃ made o st₁, Calls f args st made o st₁ ∧ (args.mapM fun (x, y) => f x y).run st = (o, st₁) := by
  induction args generalizing st with
  | nil => exact ⟨[], _, st, .nil st, rfl⟩
  | cons arg args ih =>
    obtain ⟨x, y⟩ := arg
    rw [List.mapM_cons]
    rcases (f x y).run_cases st with ⟨z, log, st₁, call⟩ | ⟨e, log, st₁, call⟩
    · obtain ⟨made, o, st₂, later, hrun⟩ := ih st₁
      refine ⟨_, _, st₂, .cons call later, ?_⟩
      rw [Stateful.run_bind_of_ok call, bind_pure_comp, Stateful.run_map, hrun]
      simp only [Outcome.result_map, Outcome.log_map]
    · exact ⟨_, _, st₁, .fail call, Stateful.run_bind_of_error call _⟩

/-- Without a failure there is one call for each of the arguments, and one result for each call. -/
theorem of_ok (h : Calls f args st made o st₁) {zs : List γ} (ho : o.result = .ok zs) :
    made = args ∧ zs.length = args.length := by
  induction h generalizing zs with
  | nil st =>
    cases ho
    exact ⟨rfl, rfl⟩
  | @cons x y z rest made st st₁ st₂ log o call later ih =>
    cases hr : o.result with
    | error e =>
      rw [hr] at ho
      cases ho
    | ok ws =>
      rw [hr] at ho
      cases ho
      obtain ⟨hmade, hl⟩ := ih hr
      exact ⟨congrArg _ hmade, congrArg (· + 1) hl⟩
  | fail call => cases ho

/-- The last call is the one that fails. -/
theorem of_error (h : Calls f args st made o st₁) {e : ε} (ho : o.result = .error e) :
    ∃ i < args.length, made = args.take (i + 1) := by
  induction h with
  | nil st => cases ho
  | @cons x y z rest made st st₁ st₂ log o call later ih =>
    cases hr : o.result with
    | error e' =>
      rw [hr] at ho
      cases ho
      obtain ⟨i, hi, hmade⟩ := ih hr
      exact ⟨i + 1, Nat.succ_lt_succ hi, congrArg _ hmade⟩
    | ok ws =>
      rw [hr] at ho
      cases ho
  | fail call => exact ⟨0, Nat.succ_pos _, rfl⟩

end Calls

namespace Column

/-- The column with empty slots after its own, up to the length `n`. -/
def padTo (n : Nat) (c : Column α) : Column α := ⟨c.slots ++ List.replicate (n - c.length) .null⟩

/-- The slots of two columns at each position up to the longer length. -/
def slotPairs (a : Column α) (b : Column β) : List (Nullable α × Nullable β) :=
  (List.range (max a.length b.length)).map fun i => (a.slot i, b.slot i)

theorem length_slotPairs (a : Column α) (b : Column β) :
    (a.slotPairs b).length = max a.length b.length := by simp [slotPairs]

/-- Two columns joined by a function with a state; the record on the padding comes first. -/
def join (f : Nullable α → Nullable β → Stateful σ ε (Nullable γ)) (c : Column α) (b : Broadcast β) :
    Stateful σ ε (Column γ) := do
  .recordAll (c.paddingLog b)
  c.zipWithM f b

theorem run_join (f : Nullable α → Nullable β → Stateful σ ε (Nullable γ)) (c : Column α)
    (b : Broadcast β) (st : σ) : (c.join f b).run st =
      (⟨((c.zipWithM f b).run st).1.result, c.paddingLog b ++ ((c.zipWithM f b).run st).1.log⟩,
        ((c.zipWithM f b).run st).2) :=
  Stateful.run_bind_of_ok rfl _

theorem calls_zipWithM (f : Nullable α → Nullable β → Stateful σ ε (Nullable γ)) (a : Column α)
    (b : Column β) (st : σ) : ∃ made o st₁, Calls f (a.slotPairs b) st made o st₁ ∧
      (a.zipWithM f b.broadcast).run st = (mk <$> o, st₁) := by
  obtain ⟨made, o, st₁, hcalls, hrun⟩ := Calls.exists_of_mapM f (a.slotPairs b) st
  rw [slotPairs, List.mapM_map] at hrun
  refine ⟨made, o, st₁, hcalls, ?_⟩
  unfold zipWithM
  rw [Stateful.run_map]
  exact congrArg (fun x : Outcome ε _ × σ => (mk <$> x.1, x.2)) hrun

/-- An operator between columns is joined with by a function without a state. -/
theorem run_join_ofExcept (f : Nullable α → Nullable β → Except ε (Nullable γ)) (c : Column α)
    (b : Broadcast β) (st : σ) :
    (c.join (fun x y => .ofExcept (f x y)) b).run st = (c.combine f b, st) := by
  have hz : c.zipWithM (fun x y => (.ofExcept (f x y) : Stateful σ ε (Nullable γ))) b =
      .ofExcept (c.zipWithM f b) := by
    unfold zipWithM
    rw [Stateful.mapM_ofExcept]
    apply Stateful.ext_run
    intro st
    rw [Stateful.run_map]
    exact congrArg (·, st) (Outcome.ofExcept_map _ _).symm
  rw [run_join, hz]
  change ((⟨c.zipWithM f b, c.paddingLog b ++ []⟩ : Outcome ε _), st) = _
  rw [List.append_nil, combine]

theorem combine_ok (f : Nullable α → Nullable β → Nullable γ) (c : Column α) (b : Broadcast β) :
    c.combine (fun x y => (.ok (f x y) : Except ε _)) b = c.meet f b := by
  have hz : c.zipWithM (fun x y => (.ok (f x y) : Except ε _)) b = .ok (c.zipWith f b) := by
    rw [zipWithM_eq_tabulate, tabulate_eq_ok_iff]
    exact ⟨length_zipWith f c b, fun i hi => congrArg Except.ok (slot_zipWith hi).symm⟩
  rw [combine, hz, meet]

theorem length_padTo {n : Nat} {c : Column α} (h : c.length ≤ n) : (c.padTo n).length = n := by
  have hl : (c.padTo n).length = c.length + (n - c.length) := by simp [padTo, length]
  omega

@[simp] theorem slot_padTo (n : Nat) (c : Column α) (i : Nat) : (c.padTo n).slot i = c.slot i := by
  by_cases hi : i < c.length
  · rw [slot, padTo, List.getElem?_append_left hi, slot]
  · rw [slot_of_length_le (Nat.le_of_not_lt hi), slot, padTo,
      List.getElem?_append_right (Nat.le_of_not_lt hi), List.getElem?_replicate]
    split <;> rfl

section Padded

variable (a : Column α) (b : Column β)

theorem zipLength_padTo :
    (a.padTo (max a.length b.length)).zipLength (b.padTo (max a.length b.length)).broadcast =
      a.zipLength b.broadcast := by
  rw [zipLength_column, length_padTo (Nat.le_max_left _ _), length_padTo (Nat.le_max_right _ _),
    Nat.max_self, zipLength_column]

theorem paddingLog_padTo :
    (a.padTo (max a.length b.length)).paddingLog (b.padTo (max a.length b.length)).broadcast = [] := by
  apply paddingLog_of_length_eq
  rw [length_padTo (Nat.le_max_left _ _), length_padTo (Nat.le_max_right _ _)]

theorem zipWithM_padTo {m : Type → Type} [Monad m]
    (f : Nullable α → Nullable β → m (Nullable γ)) :
    (a.padTo (max a.length b.length)).zipWithM f (b.padTo (max a.length b.length)).broadcast =
      a.zipWithM f b.broadcast := by
  unfold zipWithM
  rw [zipLength_padTo]
  simp only [Column.broadcast, slot_padTo]

theorem zipWith_padTo (f : Nullable α → Nullable β → Nullable γ) :
    (a.padTo (max a.length b.length)).zipWith f (b.padTo (max a.length b.length)).broadcast =
      a.zipWith f b.broadcast := by
  unfold zipWith
  rw [zipLength_padTo]
  simp only [Column.broadcast, slot_padTo]

end Padded

end Column

namespace Outcome

/-- The outcome with records written before it. -/
def after (log : List LogRecord) (x : Outcome ε α) : Outcome ε α := ⟨x.result, log ++ x.log⟩

theorem map_after (g : α → β) (log : List LogRecord) (x : Outcome ε α) :
    g <$> x.after log = (g <$> x).after log := by
  rcases x with ⟨e | a, records⟩
  · rfl
  · exact (map_mk_ok _ _ _).trans (congrArg (after log) (map_mk_ok g a records).symm)

end Outcome

namespace Column

variable (a : Column α) (b : Column β)

theorem combine_padTo (f : Nullable α → Nullable β → Except ε (Nullable γ)) :
    a.combine f b.broadcast = Outcome.after (a.paddingLog b.broadcast)
      ((a.padTo (max a.length b.length)).combine f (b.padTo (max a.length b.length)).broadcast) := by
  simp only [combine, Outcome.after, zipWithM_padTo, paddingLog_padTo, List.append_nil]

theorem meet_padTo (f : Nullable α → Nullable β → Nullable γ) :
    (a.meet f b.broadcast : Outcome ε _) = Outcome.after (a.paddingLog b.broadcast)
      ((a.padTo (max a.length b.length)).meet f (b.padTo (max a.length b.length)).broadcast) := by
  simp only [meet, Outcome.after, zipWith_padTo, paddingLog_padTo, List.append_nil]

end Column

/-- An operation on two terms that an operator or a method names. -/
inductive TwoTerms {τ : Type} : (τ → τ → Operation τ) → Prop where
  | binary (op : BinaryOperator) : TwoTerms (.binary op)
  | method (m : Method) : TwoTerms (.method m)

/-- Such an operation whose operator or method the element type has. -/
inductive Suited (t : ElementType) {τ : Type} : (τ → τ → Operation τ) → Prop where
  | binary {op : BinaryOperator} (h : op.SuitedTo t) : Suited t (.binary op)
  | method {m : Method} (h : m.SuitedTo t) : Suited t (.method m)

section Operations

variable {t : ElementType} (a b : Column t.Value)

/-- Two columns always fit, so only the type decides. -/
theorem run?_binary_columns_isSome_iff (op : BinaryOperator) (p q : Passing) :
    (Operation.run? (.binary op (a.term p) (b.term q))).isSome ↔ op.SuitedTo t := by
  rw [← ElementType.binary?_isSome_iff]
  cases known : t.binary? op with
  | none =>
    simp only [Operation.run?, known]
    exact iff_of_false Bool.false_ne_true Bool.false_ne_true
  | some f =>
    rw [run?_binary known, combine?_columns]
    rfl

theorem run?_method_columns_isSome_iff (m : Method) (p q : Passing) :
    (Operation.run? (.method m (a.term p) (b.term q))).isSome ↔ m.SuitedTo t :=
  Method.onColumn?_isSome_iff (c := a) (b := b.broadcast)

theorem run?_columns_isSome_iff {two : Term t.Value → Term t.Value → Operation (Term t.Value)}
    (h : TwoTerms two) (p q : Passing) :
    (Operation.run? (two (a.term p) (b.term q))).isSome ↔ Suited t two := by
  constructor
  · intro hsome
    cases h with
    | binary op => exact .binary ((run?_binary_columns_isSome_iff a b op p q).mp hsome)
    | method m => exact .method ((run?_method_columns_isSome_iff a b m p q).mp hsome)
  · intro hsuited
    cases hsuited with
    | binary hop => exact (run?_binary_columns_isSome_iff a b _ p q).mpr hop
    | method hm => exact (run?_method_columns_isSome_iff a b _ p q).mpr hm

theorem onColumn?_padTo (m : Method) :
    m.onColumn? a b.broadcast = (m.onColumn? (a.padTo (max a.length b.length))
      (b.padTo (max a.length b.length)).broadcast).map (Outcome.after (a.paddingLog b.broadcast)) := by
  cases m with
  | equal | notEqual =>
    simp only [Method.onColumn?, Option.map_some, Column.meet_padTo a b, Outcome.map_after]
  | compare | connect | checked =>
    simp only [Method.onColumn?, Option.map_map, Function.comp_def, Column.meet_padTo a b,
      Outcome.map_after]

theorem run?_padTo {two : Term t.Value → Term t.Value → Operation (Term t.Value)}
    (h : TwoTerms two) (p q : Passing) :
    Operation.run? (two (a.term p) (b.term q)) =
      (Operation.run? (two ((a.padTo (max a.length b.length)).term p)
        ((b.padTo (max a.length b.length)).term q))).map
        (Outcome.after (a.paddingLog b.broadcast)) := by
  cases h with
  | binary op =>
    cases known : t.binary? op with
    | none => simp only [Operation.run?, known]; rfl
    | some f =>
      simp only [run?_binary known, combine?_columns, Option.map_some, Column.combine_padTo a b,
        Outcome.map_after]
  | method m => exact onColumn?_padTo a b m

theorem log_run?_padTo {two : Term t.Value → Term t.Value → Operation (Term t.Value)}
    (h : TwoTerms two) (p q : Passing) {x : Outcome Fault (Answer t)}
    (hx : Operation.run? (two ((a.padTo (max a.length b.length)).term p)
      ((b.padTo (max a.length b.length)).term q)) = some x) : x.log = [] := by
  cases h with
  | binary op =>
    obtain ⟨f, known, -⟩ := Option.bind_eq_some_iff.mp hx
    rw [run?_binary known, combine?_columns] at hx
    cases hx
    simp only [Outcome.log_map, Column.combine, Column.paddingLog_padTo]
  | method m => exact (log_of_onColumn? hx).trans (Column.paddingLog_padTo a b)

end Operations

/-- A function that joins two columns is called once for each position up to the longer length, in order,
with the slots there, each time from the state that the call before left; a call that fails is the last
one. What the calls give is the column, and their records come after the one on the padding, which is
there exactly if the lengths differ. Columns that are first extended with empty slots to one length are
joined with the same calls, without that record. Methods and operators join with functions that have no
state, and so they too are the same on the extended columns but for the record, and run on both exactly if
the element type has them. -/
theorem join_calls_and_padding :
    (∀ (σ ε α β γ : Type) (f : Nullable α → Nullable β → Stateful σ ε (Nullable γ)) (a : Column α)
      (b : Column β) (st : σ), ∃ made o st₁,
      let n := max a.length b.length
      let args := (List.range n).map fun i => (a.slot i, b.slot i)
      let padding := if b.length = a.length then [] else [LogRecord.padding a.length b.length]
      Calls f args st made o st₁ ∧
      (∀ slots, o.result = .ok slots → made = args ∧ slots.length = n) ∧
      (∀ e, o.result = .error e → ∃ i < n, made = args.take (i + 1)) ∧
      (a.join f b.broadcast).run st = ((Column.mk <$> o).after padding, st₁) ∧
      ((a.padTo n).join f (b.padTo n).broadcast).run st = (Column.mk <$> o, st₁)) ∧
    (∀ (σ α β γ : Type) (a : Column α) (b : Column β) (st : σ),
      (∀ f : Nullable α → Nullable β → Nullable γ,
        (a.join (fun x y => pure (f x y)) b.broadcast).run st =
          ((a.meet f b.broadcast : Outcome Fault _), st)) ∧
      ∀ f : Nullable α → Nullable β → Except Fault (Nullable γ),
        (a.join (fun x y => .ofExcept (f x y)) b.broadcast).run st = (a.combine f b.broadcast, st)) ∧
    ∀ (t : ElementType) (a b : Column t.Value) (two : Term t.Value → Term t.Value → Operation _),
      TwoTerms two → ∀ p q,
      let n := max a.length b.length
      let padding := if b.length = a.length then [] else [LogRecord.padding a.length b.length]
      let padded := Operation.run? (two ((a.padTo n).term p) ((b.padTo n).term q))
      (padded.isSome ↔ Suited t two) ∧
      Operation.run? (two (a.term p) (b.term q)) = padded.map (Outcome.after padding) ∧
      ∀ x, padded = some x → x.log = [] := by
  refine ⟨?_, ?_, ?_⟩
  · intro σ ε α β γ f a b st
    obtain ⟨made, o, st₁, hcalls, hrun⟩ := a.calls_zipWithM f b st
    refine ⟨made, o, st₁, hcalls, ?_, ?_, ?_, ?_⟩
    · intro slots ho
      have hok := hcalls.of_ok ho
      rwa [Column.length_slotPairs] at hok
    · intro e he
      have herror := hcalls.of_error he
      rwa [Column.length_slotPairs] at herror
    · rw [Column.run_join, hrun]
      rfl
    · rw [Column.run_join, Column.zipWithM_padTo, Column.paddingLog_padTo, hrun]
      rfl
  · intro σ α β γ a b st
    refine ⟨fun f => ?_, fun f => Column.run_join_ofExcept f a b.broadcast st⟩
    rw [← Column.combine_ok]
    exact Column.run_join_ofExcept _ a b.broadcast st
  · intro t a b two h p q
    exact ⟨run?_columns_isSome_iff _ _ h p q, run?_padTo a b h p q,
      fun x hx => log_run?_padTo a b h p q hx⟩

end ColumnAlgebra
