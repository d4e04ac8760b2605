import ColumnAlgebra.Proofs.Spread
import ColumnAlgebra.Session.Step
import Mathlib.Data.List.Induction

/-!
# Histories of edits

A column is changed by one edit after the other; what it holds in the end is read off the history by
looking back. The length counts the pushes since the last clearing, and a slot is the one that the last
edit to reach its position has put there. The step lemmas say what a single edit does to the length and
to the slots; the laws of whole histories follow by induction on the last edit. Reads between the edits
leave no trace, and neither do the steps of a session on other columns, as a step changes its subject at
most.
-/

namespace ColumnAlgebra
set_option autoImplicit false

variable {α : Type}

namespace Edit

/-- An edit that fails leaves the column as it was. -/
def after (limit : Nat) (c : Column α) (e : Edit α) : Column α :=
  match (e.run limit c).result with
  | .ok (d, _) => d
  | .error _ => c

def reply (limit : Nat) (c : Column α) (e : Edit α) : Except Fault EditReply :=
  (e.run limit c).result.map Prod.snd

def afterAll (limit : Nat) (c : Column α) (es : List (Edit α)) : Column α :=
  es.foldl (after limit) c

def isPush : Edit α → Bool
  | push _ => true
  | _ => false

def isClear : Edit α → Bool
  | clear => true
  | _ => false

/-- The index and the slot of a write to a single slot, through a handle or not. -/
def indexed? : Edit α → Option (SlotIndex × Nullable α)
  | set j s | assignHandle j s => some (j, s)
  | reset j | resetHandle j => some (j, .null)
  | _ => none

/-- What an edit puts at a position of a column of length `n`, if it reaches the position. -/
def written? (n i : Nat) : Edit α → Option (Nullable α)
  | push s => if i = n then some s else none
  | set j s | assignHandle j s => if j.position? = some i ∧ i < n then some s else none
  | reset j | resetHandle j => if j.position? = some i ∧ i < n then some .null else none
  | assign a => if i < n then some (.value a) else none
  | assignNull => if i < n then some .null else none
  | clear | reserve _ | shrinkToFit => none

def lengthAfter (n : Nat) (e : Edit α) : Nat :=
  if e.isClear then 0 else if e.isPush then n + 1 else n

/-- The edits after the last clearing, the latest first. -/
def sinceClear (es : List (Edit α)) : List (Edit α) := es.reverse.takeWhile fun e => !e.isClear

/-- The number of pushes since the last clearing, and the slots of before if there was none. -/
def lengthOf (n : Nat) (es : List (Edit α)) : Nat :=
  (sinceClear es).countP isPush + if es.any isClear then 0 else n

/-- What the edit of number `m` puts at a position, given the length before the first edit. -/
def writtenAt? (n : Nat) (es : List (Edit α)) (i m : Nat) : Option (Nullable α) :=
  es[m]?.bind (written? (lengthOf n (es.take m)) i)

/-- The edit of number `m` neither clears the column nor reaches the position. -/
def Untouched (n : Nat) (es : List (Edit α)) (i m : Nat) : Prop :=
  writtenAt? n es i m = none ∧ es[m]?.any isClear = false

/-- The slot is the one put at the position by the last edit that reached it, with no clearing since,
or the one of before the history if no edit reached it and none cleared the column. -/
def LastWrite (n : Nat) (es : List (Edit α)) (i : Nat) (before s : Nullable α) : Prop :=
  (∃ k, writtenAt? n es i k = some s ∧ ∀ m > k, Untouched n es i m) ∨
    (s = before ∧ ∀ m, Untouched n es i m)

section Step

variable {limit : Nat} {c : Column α} {e : Edit α} {j : SlotIndex} {s : Nullable α}

theorem run_of_indexed? (h : e.indexed? = some (j, s)) :
    e.run limit c = (fun (d, accepted) => (d, .flag accepted)) <$> c.write j.position? s := by
  cases e with
  | set | reset =>
    cases h
    rfl
  | assignHandle | resetHandle =>
    cases h
    simp only [run, onHandle, Handle.assignNull, Handle.assign_eq_map, Functor.map_map]
    rfl
  | push | assign | assignNull | clear | reserve | shrinkToFit => cases h

/-- A write to a single slot is accepted below the length, and elsewhere changes nothing. -/
theorem indexed?_cases (limit : Nat) (c : Column α) (h : e.indexed? = some (j, s)) :
    (∃ n < c.length, j.position? = some n ∧ e.after limit c = ⟨c.slots.set n s⟩ ∧
      e.reply limit c = .ok (.flag true)) ∨
    ((∀ n, j.position? = some n → c.length ≤ n) ∧ e.after limit c = c ∧
      e.reply limit c = .ok (.flag false)) := by
  unfold after reply
  rw [run_of_indexed? h]
  rcases c.write_cases (ε := Fault) j.position? s with ⟨n, hn, hj, hw⟩ | ⟨hj, hw⟩
  · rw [hw]
    exact Or.inl ⟨n, hn, hj, rfl, rfl⟩
  · rw [hw]
    exact Or.inr ⟨hj, rfl, rfl⟩

theorem length_after_indexed (h : e.indexed? = some (j, s)) :
    (e.after limit c).length = c.length := by
  rcases indexed?_cases limit c h with ⟨n, _, _, ha, _⟩ | ⟨_, ha, _⟩
  · rw [ha, Column.length_set_slots]
  · rw [ha]

theorem slot_after_indexed (h : e.indexed? = some (j, s)) (i : Nat) :
    (e.after limit c).slot i =
      (if j.position? = some i ∧ i < c.length then some s else none).getD (c.slot i) := by
  rcases indexed?_cases limit c h with ⟨n, hn, hj, ha, _⟩ | ⟨hj, ha, _⟩
  · rw [ha, Column.slot_set_slots hn, hj]
    by_cases hi : i = n
    · subst hi
      simp [hn]
    · simp [hi, Ne.symm hi]
  · rw [ha, if_neg]
    · rfl
    · rintro ⟨hp, hlt⟩
      exact absurd (hj i hp) (Nat.not_le.mpr hlt)

theorem after_reserve (limit n : Nat) (c : Column α) : (reserve n).after limit c = c := by
  have hrun : (reserve n).run limit c = (·, .flag true) <$> c.reserve limit n := rfl
  unfold after
  rw [hrun, Column.reserve]
  by_cases h : limit < n
  · rw [if_pos h]
    rfl
  · rw [if_neg h]
    rfl

theorem length_after (limit : Nat) (c : Column α) (e : Edit α) :
    (e.after limit c).length = e.lengthAfter c.length := by
  cases e with
  | push s => exact c.length_push s
  | set | reset | assignHandle | resetHandle => exact length_after_indexed rfl
  | assign a => exact Column.length_filled _ _
  | assignNull => exact c.length_map _
  | clear => rfl
  | reserve n => rw [after_reserve]; rfl
  | shrinkToFit => rfl

theorem slot_after {i : Nat} (hi : i < e.lengthAfter c.length) :
    (e.after limit c).slot i = (e.written? c.length i).getD (c.slot i) := by
  cases e with
  | push s =>
    refine (c.slot_push s i).trans ?_
    by_cases h : i = c.length <;> simp [written?, h]
  | set | reset | assignHandle | resetHandle => exact slot_after_indexed rfl i
  | assign a =>
    have hlt : i < c.length := hi
    refine (Column.slot_filled _ hlt).trans ?_
    simp [written?, hlt]
  | assignNull =>
    have hlt : i < c.length := hi
    refine (Column.slot_map hlt).trans ?_
    simp [written?, hlt]
  | clear => exact absurd hi (Nat.not_lt_zero i)
  | reserve n => rw [after_reserve]; rfl
  | shrinkToFit => rfl

theorem reply_indexed_iff (limit : Nat) (c : Column α) (h : e.indexed? = some (j, s)) :
    ∃ b, e.reply limit c = .ok (.flag b) ∧
      (b = true ↔ ∃ p, j.position? = some p ∧ p < c.length) := by
  rcases indexed?_cases limit c h with ⟨n, hn, hj, _, hr⟩ | ⟨hj, _, hr⟩
  · exact ⟨true, hr, fun _ => ⟨n, hj, hn⟩, fun _ => rfl⟩
  · refine ⟨false, hr, ?_, ?_⟩
    · intro h
      cases h
    · rintro ⟨p, hp, hlt⟩
      exact absurd (hj p hp) (Nat.not_le.mpr hlt)

theorem after_eq_of_indexed? (h : e.indexed? = some (j, s))
    (hr : e.reply limit c = .ok (.flag false)) : e.after limit c = c := by
  rcases indexed?_cases limit c h with ⟨_, _, _, _, hr'⟩ | ⟨_, ha, _⟩
  · rw [hr'] at hr
    cases hr
  · exact ha

/-- Nothing changes where a write was not accepted, room was made or given back, or an edit failed. -/
theorem after_eq_self (h : e.reply limit c = .ok (.flag false) ∨
    (∃ fault, e.reply limit c = .error fault) ∨ (∃ n, e = reserve n) ∨ e = shrinkToFit) :
    e.after limit c = c := by
  rcases h with hr | ⟨fault, hr⟩ | ⟨n, rfl⟩ | rfl
  · cases e with
    | set | reset | assignHandle | resetHandle => exact after_eq_of_indexed? rfl hr
    | reserve n => exact after_reserve limit n c
    | shrinkToFit => rfl
    | push | assign | assignNull | clear => cases hr
  · unfold reply at hr
    unfold after
    cases hx : (e.run limit c).result with
    | error _ => rfl
    | ok _ =>
      rw [hx] at hr
      cases hr
  · exact after_reserve limit n c
  · rfl

end Step

section Run

variable {n i : Nat} {es : List (Edit α)} {before s : Nullable α}

theorem sinceClear_concat (es : List (Edit α)) (e : Edit α) :
    sinceClear (es ++ [e]) = if e.isClear then [] else e :: sinceClear es := by
  unfold sinceClear
  rw [List.reverse_append, List.reverse_singleton, List.singleton_append, List.takeWhile_cons]
  cases e.isClear <;> rfl

theorem lengthOf_concat (n : Nat) (es : List (Edit α)) (e : Edit α) :
    lengthOf n (es ++ [e]) = e.lengthAfter (lengthOf n es) := by
  unfold lengthOf lengthAfter
  rw [sinceClear_concat, List.any_append, List.any_cons, List.any_nil, Bool.or_false]
  cases e.isClear with
  | true => simp
  | false =>
    simp only [Bool.or_false, Bool.false_eq_true, if_false, List.countP_cons]
    split <;> omega

theorem afterAll_concat (limit : Nat) (c : Column α) (es : List (Edit α)) (e : Edit α) :
    afterAll limit c (es ++ [e]) = e.after limit (afterAll limit c es) := by
  simp [afterAll]

theorem length_afterAll (limit : Nat) (c : Column α) (es : List (Edit α)) :
    (afterAll limit c es).length = lengthOf c.length es := by
  induction es using List.reverseRecOn with
  | nil => simp [afterAll, lengthOf, sinceClear]
  | append_singleton es e ih => rw [afterAll_concat, length_after, ih, lengthOf_concat]

theorem writtenAt?_concat_of_lt {m : Nat} (h : m < es.length) (e : Edit α) :
    writtenAt? n (es ++ [e]) i m = writtenAt? n es i m := by
  unfold writtenAt?
  rw [List.getElem?_append_left h, List.take_append_of_le_length (Nat.le_of_lt h)]

theorem writtenAt?_concat_length (n i : Nat) (es : List (Edit α)) (e : Edit α) :
    writtenAt? n (es ++ [e]) i es.length = e.written? (lengthOf n es) i := by
  simp [writtenAt?]

theorem untouched_of_length_le {m : Nat} (h : es.length ≤ m) : Untouched n es i m := by
  simp [Untouched, writtenAt?, List.getElem?_eq_none h]

theorem untouched_concat_of_lt {m : Nat} (h : m < es.length) (e : Edit α) :
    Untouched n (es ++ [e]) i m ↔ Untouched n es i m := by
  unfold Untouched
  rw [writtenAt?_concat_of_lt h, List.getElem?_append_left h]

theorem untouched_concat_length (n i : Nat) (es : List (Edit α)) (e : Edit α) :
    Untouched n (es ++ [e]) i es.length ↔
      e.written? (lengthOf n es) i = none ∧ e.isClear = false := by
  simp [Untouched, writtenAt?_concat_length]

theorem lt_of_writtenAt?_eq_some {k : Nat} (h : writtenAt? n es i k = some s) : k < es.length := by
  by_contra hk
  simp [writtenAt?, List.getElem?_eq_none (Nat.le_of_not_lt hk)] at h

/-- An edit that leaves a position alone leaves the last write there as it was. -/
theorem lastWrite_concat {e : Edit α} (hw : e.written? (lengthOf n es) i = none)
    (hc : e.isClear = false) (h : LastWrite n es i before s) :
    LastWrite n (es ++ [e]) i before s := by
  have hstep (m : Nat) (hm : Untouched n es i m) : Untouched n (es ++ [e]) i m := by
    rcases Nat.lt_trichotomy m es.length with hlt | heq | hgt
    · exact (untouched_concat_of_lt hlt e).mpr hm
    · subst heq
      exact (untouched_concat_length n i es e).mpr ⟨hw, hc⟩
    · exact untouched_of_length_le (by simp; omega)
  rcases h with ⟨k, hk, hlater⟩ | ⟨hs, hall⟩
  · refine Or.inl ⟨k, ?_, fun m hm => hstep m (hlater m hm)⟩
    rw [writtenAt?_concat_of_lt (lt_of_writtenAt?_eq_some hk)]
    exact hk
  · exact Or.inr ⟨hs, fun m => hstep m (hall m)⟩

theorem LastWrite.unique {s' : Nullable α} (h : LastWrite n es i before s)
    (h' : LastWrite n es i before s') : s = s' := by
  have hno {k : Nat} {u : Nullable α} (hk : writtenAt? n es i k = some u)
      (hm : Untouched n es i k) : False := by
    rw [hm.1] at hk
    cases hk
  rcases h with ⟨k, hk, hlater⟩ | ⟨hs, hall⟩
  · rcases h' with ⟨k', hk', hlater'⟩ | ⟨_, hall'⟩
    · rcases Nat.lt_trichotomy k k' with hlt | heq | hgt
      · exact (hno hk' (hlater k' hlt)).elim
      · subst heq
        exact Option.some.inj (hk.symm.trans hk')
      · exact (hno hk (hlater' k hgt)).elim
    · exact (hno hk (hall' k)).elim
  · rcases h' with ⟨k', hk', _⟩ | ⟨hs', _⟩
    · exact (hno hk' (hall k')).elim
    · exact hs.trans hs'.symm

theorem lastWrite_afterAll (limit : Nat) (c : Column α) (es : List (Edit α)) {i : Nat}
    (hi : i < lengthOf c.length es) :
    LastWrite c.length es i (c.slot i) ((afterAll limit c es).slot i) := by
  induction es using List.reverseRecOn with
  | nil => exact Or.inr ⟨rfl, fun m => untouched_of_length_le (Nat.zero_le m)⟩
  | append_singleton es e ih =>
    have hl := length_afterAll limit c es
    rw [lengthOf_concat] at hi
    rw [afterAll_concat, slot_after (by rwa [hl]), hl]
    cases hw : e.written? (lengthOf c.length es) i with
    | some u =>
      refine Or.inl ⟨es.length, ?_, fun m hm => untouched_of_length_le (by simp; omega)⟩
      rw [writtenAt?_concat_length, hw]
      rfl
    | none =>
      have hold : e.isClear = false ∧ i < lengthOf c.length es := by
        cases e with
        | push u =>
          have hne : i ≠ lengthOf c.length es := by
            rintro rfl
            simp [written?] at hw
          have hlt : i < lengthOf c.length es + 1 := hi
          exact ⟨rfl, by omega⟩
        | clear => exact absurd hi (Nat.not_lt_zero i)
        | _ => exact ⟨rfl, hi⟩
      exact lastWrite_concat hw hold.1 (ih hold.2)

end Run

end Edit

/-- What may be done to one column in the course of a session: it is edited or read. -/
inductive Access (t : ElementType) where
  | edit (e : Edit t.Value)
  | query (q : Query t)

namespace Access

variable {t : ElementType}

def command : Access t → Command t
  | edit e => .edit e
  | query q => .query q

def edit? : Access t → Option (Edit t.Value)
  | edit e => some e
  | query _ => none

/-- The column after the accesses; reads leave it as it is. -/
def columnAfter (c : Column t.Value) (as : List (Access t)) : Column t.Value :=
  Edit.afterAll t.maxSlots c (as.filterMap edit?)

variable {store : Store t.Value} {name : String} {c : Column t.Value}

theorem subjectIn_eq_pure (step : Step t) (h : store.find? step.subject = some c) :
    step.subjectIn store = pure c := by
  unfold Step.subjectIn
  rw [h]

theorem run_query (h : store.find? name = some c) (q : Query t) :
    (Step.run store ⟨name, .query q⟩).1 = store := by
  have hout : (Step.outcome store ⟨name, .query q⟩).result =
      (store, ·) <$> (q.reply c).mapError .column := by
    unfold Step.outcome
    simp only [subjectIn_eq_pure ⟨name, .query q⟩ h, pure_bind, bind_pure_comp,
      Outcome.result_map, Outcome.result_ofExcept]
  simp only [Step.run, hout]
  cases (q.reply c).mapError StepError.column <;> rfl

theorem run_edit (h : store.find? name = some c) (e : Edit t.Value) :
    (Step.run store ⟨name, .edit e⟩).1.find? name = some (e.after t.maxSlots c) ∧
      (Step.run store ⟨name, .edit e⟩).2.result =
        ((e.reply t.maxSlots c).mapError .fault).map EditReply.reply := by
  have hout : (Step.outcome store ⟨name, .edit e⟩).result =
      (fun x => (store.insert name x.1, x.2.reply)) <$>
        (e.run t.maxSlots c).result.mapError .fault := by
    unfold Step.outcome
    simp only [subjectIn_eq_pure ⟨name, .edit e⟩ h, pure_bind, bind_pure_comp,
      Outcome.result_map]
    rfl
  unfold Edit.after Edit.reply
  simp only [Step.run, hout]
  cases (e.run t.maxSlots c).result with
  | error fault => exact ⟨h, rfl⟩
  | ok d => exact ⟨Store.find?_insert _ _ _, rfl⟩

theorem run_access (h : store.find? name = some c) (a : Access t) :
    (Step.run store ⟨name, a.command⟩).1.find? name = some (columnAfter c [a]) := by
  cases a with
  | edit e => exact (run_edit h e).1
  | query q =>
    rw [command, run_query h]
    exact h

theorem columnAfter_cons (c : Column t.Value) (a : Access t) (as : List (Access t)) :
    columnAfter c (a :: as) = columnAfter (columnAfter c [a]) as := by
  cases a <;> rfl

end Access

section Frame

variable {t : ElementType}

/-- A step that succeeds leaves the store as it was, or puts or removes its subject. -/
theorem Step.store_of_outcome {s s' : Store t.Value} {step : Step t} {r : Reply t}
    (h : (step.outcome s).result = .ok (s', r)) :
    s' = s ∨ (∃ c, s' = s.insert step.subject c) ∨ s' = s.erase step.subject := by
  obtain ⟨subject, command⟩ := step
  cases command with
  | create how =>
    cases h
    exact .inr (.inl ⟨_, rfl⟩)
  | drop =>
    cases h
    exact .inr (.inr rfl)
  | query q =>
    obtain ⟨c, -, h⟩ := Outcome.exists_of_result_bind_eq_ok h
    obtain ⟨reply, -, h⟩ := Outcome.exists_of_result_bind_eq_ok h
    cases h
    exact .inl rfl
  | edit e =>
    obtain ⟨c, -, h⟩ := Outcome.exists_of_result_bind_eq_ok h
    obtain ⟨d, -, h⟩ := Outcome.exists_of_result_bind_eq_ok h
    cases h
    exact .inr (.inl ⟨_, rfl⟩)
  | actions i as =>
    obtain ⟨c, -, h⟩ := Outcome.exists_of_result_bind_eq_ok h
    obtain ⟨k, -, h⟩ := Outcome.exists_of_result_bind_eq_ok h
    cases h
    exact .inr (.inl ⟨_, rfl⟩)
  | zip other f =>
    obtain ⟨c, -, h⟩ := Outcome.exists_of_result_bind_eq_ok h
    split at h
    · obtain ⟨made, -, h⟩ := Outcome.exists_of_result_bind_eq_ok h
      cases h
      exact .inl rfl
    · cases h
  | operate op store =>
    obtain ⟨answer, -, h⟩ := Outcome.exists_of_result_bind_eq_ok h
    dsimp only at h
    split at h
    · cases h
      exact .inr (.inl ⟨_, rfl⟩)
    · cases h
      exact .inl rfl

/-- A step changes its subject at most. -/
theorem Step.find?_run_of_ne (s : Store t.Value) {step : Step t} {name : String}
    (h : step.subject ≠ name) : (step.run s).1.find? name = s.find? name := by
  cases hresult : (step.outcome s).result with
  | error e => simp only [Step.run, hresult]
  | ok x =>
    obtain ⟨after, reply⟩ := x
    simp only [Step.run, hresult]
    rcases Step.store_of_outcome hresult with rfl | ⟨c, rfl⟩ | rfl
    · rfl
    · exact s.find?_insert_of_ne c h.symm
    · exact s.find?_erase_of_ne h.symm

theorem Step.length_runAll (s : Store t.Value) (steps : List (Step t)) :
    (Step.runAll s steps).length = steps.length := by
  induction steps generalizing s with
  | nil => rfl
  | cons step steps ih => exact congrArg (· + 1) (ih (step.run s).1)

end Frame

/-- A step of a session as one column sees it: the column is accessed, or the step is about another. -/
inductive Turn (t : ElementType) (name : String) where
  | own (a : Access t)
  | other (step : Step t) (elsewhere : step.subject ≠ name)

namespace Turn

variable {t : ElementType} {name : String}

def step : Turn t name → Step t
  | own a => ⟨name, a.command⟩
  | other step _ => step

def access? : Turn t name → Option (Access t)
  | own a => some a
  | other _ _ => none

/-- The column after the turns, of which only its own count. -/
def columnAfter (c : Column t.Value) (turns : List (Turn t name)) : Column t.Value :=
  Access.columnAfter c (turns.filterMap access?)

variable {store : Store t.Value} {c : Column t.Value}

theorem run_turn (h : store.find? name = some c) (u : Turn t name) :
    (u.step.run store).1.find? name = some (columnAfter c [u]) := by
  cases u with
  | own a => exact Access.run_access h a
  | other step elsewhere => exact (Step.find?_run_of_ne store elsewhere).trans h

theorem columnAfter_cons (c : Column t.Value) (u : Turn t name) (turns : List (Turn t name)) :
    columnAfter c (u :: turns) = columnAfter (columnAfter c [u]) turns := by
  cases u with
  | own a => exact Access.columnAfter_cons c a _
  | other step elsewhere => rfl

theorem columnAfter_map_own (c : Column t.Value) (as : List (Access t)) :
    columnAfter c (as.map (own : Access t → Turn t name)) = Access.columnAfter c as := by
  rw [columnAfter, List.filterMap_map]
  exact congrArg (Access.columnAfter c) List.filterMap_some

/-- What a session reports of the accesses to a column is read off the edits among them. -/
theorem report_of_runAll (turns : List (Turn t name)) (h : store.find? name = some c) {m : Nat}
    {a : Access t} {report : Report t} (ha : turns[m]? = some (.own a))
    (hm : (Step.runAll store (turns.map step))[m]? = some report) :
    report.state = some (columnAfter c (turns.take (m + 1))) ∧
      ∀ e, a = .edit e → report.result =
        ((e.reply t.maxSlots (columnAfter c (turns.take m))).mapError .fault).map EditReply.reply := by
  induction turns generalizing store c m with
  | nil => cases hm
  | cons u turns ih =>
    cases m with
    | zero =>
      cases ha
      cases hm
      refine ⟨Access.run_access h a, ?_⟩
      intro e he
      subst he
      exact (Access.run_edit h e).2
    | succ m =>
      rw [List.take_succ_cons, List.take_succ_cons, columnAfter_cons,
        columnAfter_cons c u (turns.take m)]
      exact ih (run_turn h u) ha hm

/-- In a session of nothing but accesses every turn is one of the column's own. -/
theorem report_of_accesses (as : List (Access t)) (h : store.find? name = some c) {m : Nat}
    {report : Report t}
    (hm : (Step.runAll store (as.map fun a => ⟨name, a.command⟩))[m]? = some report) :
    report.state = some (Access.columnAfter c (as.take (m + 1))) ∧
      ∀ e, as[m]? = some (.edit e) → report.result =
        ((e.reply t.maxSlots (Access.columnAfter c (as.take m))).mapError .fault).map
          EditReply.reply := by
  have hlt : m < as.length := by
    have hlt := (List.getElem?_eq_some_iff.mp hm).1
    rwa [Step.length_runAll, List.length_map] at hlt
  have hown : (as.map (own : Access t → Turn t name))[m]? = some (.own as[m]) := by
    rw [List.getElem?_map, List.getElem?_eq_getElem hlt]
    rfl
  have hsteps : (as.map (own : Access t → Turn t name)).map step =
      as.map fun a => ⟨name, a.command⟩ := List.map_map
  rw [← hsteps] at hm
  obtain ⟨hstate, hresult⟩ := report_of_runAll _ h hown hm
  rw [← List.map_take, columnAfter_map_own] at hstate hresult
  refine ⟨hstate, ?_⟩
  intro e he
  rw [List.getElem?_eq_getElem hlt] at he
  exact hresult e (Option.some.inj he)

end Turn

/-- The slot that a new column is given at a position. -/
def Creation.given? (i : Nat) : Creation α → Option (Nullable α)
  | empty => none
  | values vs => vs[i]?.map .value
  | slots ss => ss[i]?
  | nulls n => if i < n then some .null else none

theorem Creation.getElem?_slots_column (how : Creation α) (i : Nat) :
    how.column.slots[i]? = how.given? i := by
  cases how with
  | empty => rfl
  | values vs => exact List.getElem?_map
  | slots ss => rfl
  | nulls n => exact List.getElem?_replicate

open Edit in
/-- After any edits the length counts the pushes since the last clearing, on top of the first slots if
there was none, and each slot is the last one written to its position. A write to a single slot is
accepted exactly below the length of that moment. Writes that are not accepted, making room and failed
edits change nothing. In a session with reads in between, failed ones included, the column after every
step is what the edits up to there leave, and the replies are those of the edits. So it is with a column
that the session itself creates from given slots, whatever is done to other columns in between. -/
theorem last_write_wins (t : ElementType) (c : Column t.Value) (es : List (Edit t.Value)) :
    (afterAll t.maxSlots c es).length = lengthOf c.length es ∧
    (∀ i < lengthOf c.length es, ∀ s,
      (afterAll t.maxSlots c es).slot i = s ↔ LastWrite c.length es i (c.slot i) s) ∧
    (∀ m e, es[m]? = some e →
      (∀ j s, e.indexed? = some (j, s) →
        ∃ b, e.reply t.maxSlots (afterAll t.maxSlots c (es.take m)) = .ok (.flag b) ∧
          (b = true ↔ ∃ p, j.position? = some p ∧ p < lengthOf c.length (es.take m))) ∧
      (e.reply t.maxSlots (afterAll t.maxSlots c (es.take m)) = .ok (.flag false) ∨
          (∃ fault, e.reply t.maxSlots (afterAll t.maxSlots c (es.take m)) = .error fault) ∨
          (∃ n, e = .reserve n) ∨ e = .shrinkToFit →
        afterAll t.maxSlots c (es.take (m + 1)) = afterAll t.maxSlots c (es.take m))) ∧
    (∀ (store : Store t.Value) name (as : List (Access t)), store.find? name = some c →
      ∀ m report, (Step.runAll store (as.map fun a => ⟨name, a.command⟩))[m]? = some report →
        report.state = some (Access.columnAfter c (as.take (m + 1))) ∧
        ∀ e, as[m]? = some (.edit e) → report.result =
          ((e.reply t.maxSlots (Access.columnAfter c (as.take m))).mapError .fault).map
            EditReply.reply) ∧
    ∀ (how : Creation t.Value), how.column = c → (∀ i, c.slots[i]? = how.given? i) ∧
      ∀ (store : Store t.Value) name (turns : List (Turn t name)) m a, turns[m]? = some (.own a) →
        ∃ report, (Step.runAll store (⟨name, .create how⟩ :: turns.map Turn.step))[m + 1]? =
            some report ∧
          report.state = some (Turn.columnAfter c (turns.take (m + 1))) ∧
          ∀ e, a = .edit e → report.result =
            ((e.reply t.maxSlots (Turn.columnAfter c (turns.take m))).mapError .fault).map
              EditReply.reply := by
  refine ⟨length_afterAll t.maxSlots c es, ?_, ?_, ?_, ?_⟩
  · intro i hi s
    have hlast := lastWrite_afterAll t.maxSlots c es hi
    constructor
    · rintro rfl
      exact hlast
    · intro hs
      exact hlast.unique hs
  · intro m e he
    constructor
    · intro j s hj
      rw [← length_afterAll t.maxSlots c (es.take m)]
      exact reply_indexed_iff _ _ hj
    · intro h
      rw [List.take_add_one, he, Option.toList_some, afterAll_concat]
      exact after_eq_self h
  · intro store name as hc m report hm
    exact Turn.report_of_accesses as hc hm
  · rintro how rfl
    refine ⟨how.getElem?_slots_column, ?_⟩
    intro store name turns m a ha
    have hcreated : (Step.run store ⟨name, .create how⟩).1.find? name = some how.column :=
      Store.find?_insert _ _ _
    have hlt : m < (Step.runAll (Step.run store ⟨name, .create how⟩).1
        (turns.map Turn.step)).length := by
      rw [Step.length_runAll, List.length_map]
      exact (List.getElem?_eq_some_iff.mp ha).1
    have hm := List.getElem?_eq_getElem hlt
    exact ⟨_, hm, Turn.report_of_runAll turns hcreated ha hm⟩

/-- A position that is outside at first is written to once a push has reached it. -/
example :
    Edit.afterAll 4 (⟨[.null]⟩ : Column Bool)
      [.set ⟨.i32, by decide, .wrap .i32 1⟩ (.value true), .push .null,
        .set ⟨.i32, by decide, .wrap .i32 1⟩ (.value false), .reserve 9] =
      ⟨[.null, .value false]⟩ := by
  decide

end ColumnAlgebra
