import ColumnAlgebra.Proofs.History
import ColumnAlgebra.Proofs.Padding
import Mathlib.Logic.Function.Basic

/-!
# The log of a run

What happens in a run is told by its events: a write to a single slot, with its answer, a write to a whole
column, a call on two columns. They are read off the operations and the columns that these find. An event
has one record or none. The step lemma shows of every operation that it writes the records of its events
and no others, and that its writes answer as the events say; a function that is called for the slots is
taken to write no records of its own. Main statement: so the log of any run lists the records of its
events in order, and tells how many writes were refused.
-/

namespace ColumnAlgebra
set_option autoImplicit false

variable {σ ε α β γ : Type} {t : ElementType}

/-- Lengths are those at the moment of the event. -/
inductive Event where
  | write (position : Option Nat) (length : Nat) (accepted : Bool)
  | assign (length : Nat)
  | assignNull (length : Nat)
  | clear (length : Nat)
  /-- An operator, a method or a function is called on two columns. -/
  | join (left right : Nat)

namespace Event

/-- A write is accepted at the positions below the length. -/
def writeAt (position : Option Nat) (n : Nat) : Event :=
  .write position n (position.any (· < n))

def answer? : Event → Option Bool
  | write _ _ accepted => some accepted
  | _ => none

def records : Event → List LogRecord
  | write position n accepted => if accepted then [] else [.ignoredWrite position n]
  | assign n => [.assigningValue n]
  | assignNull n => [.assigningNull n]
  | clear n => [.clearing n]
  | join n m => if n = m then [] else [.padding n m]

def lines : Event → List String
  | write position n accepted =>
    let index := match position with
      | some p => s!"Some({p})"
      | none => "None"
    if accepted then []
    else ["DEBUG " ++ s!"ignoring write to index {index} of column of length {n}"]
  | assign n => ["TRACE " ++ s!"assigning a value to {n} slots"]
  | assignNull n => ["TRACE " ++ s!"assigning null to {n} slots"]
  | clear n => ["TRACE " ++ s!"clearing column of length {n}"]
  | join n m =>
    if n = m then [] else ["TRACE " ++ s!"null-padding column operands of lengths {n} and {m}"]

/-- A write to a whole column, or a call on two columns of different lengths. -/
def isTraced : Event → Bool
  | write .. => false
  | join n m => n != m
  | _ => true

theorem map_line_records (e : Event) : e.records.map LogRecord.line = e.lines := by
  have hdebug : "DEBUG" ++ " " = "DEBUG " := by decide
  have htrace : "TRACE" ++ " " = "TRACE " := by decide
  cases e with
  | write position n accepted =>
    cases accepted with
    | false => cases position <;> exact congrArg (fun l => [l ++ _]) hdebug
    | true => rfl
  | assign | assignNull | clear => exact congrArg (fun l => [l ++ _]) htrace
  | join n m =>
    by_cases h : n = m
    · simp only [records, lines, if_pos h, List.map_nil]
    · simp only [records, lines, if_neg h, List.map_singleton]
      exact congrArg (fun l => [l ++ _]) htrace

end Event

def recordsOf (es : List Event) : List LogRecord := es.flatMap Event.records

def answersOf (es : List Event) : List Bool := es.filterMap Event.answer?

/-- A log and answers that tell all of the events and nothing else. -/
structure Tells (es : List Event) (log : List LogRecord) (answers : List Bool) : Prop where
  log_eq : log = recordsOf es
  answers_eq : answers = answersOf es

theorem filterMap_cons_toList (f : α → Option β) (x : α) (xs : List α) :
    (x :: xs).filterMap f = (f x).toList ++ xs.filterMap f := by
  rw [List.filterMap_cons]
  cases f x <;> rfl

namespace Tells

variable {es later : List Event} {log more : List LogRecord} {answers others : List Bool}

theorem append (h : Tells es log answers) (hl : Tells later more others) :
    Tells (es ++ later) (log ++ more) (answers ++ others) where
  log_eq := by rw [h.log_eq, hl.log_eq, recordsOf, recordsOf, recordsOf, List.flatMap_append]
  answers_eq := by
    rw [h.answers_eq, hl.answers_eq, answersOf, answersOf, answersOf, List.filterMap_append]

theorem lines_eq (h : Tells es log answers) : log.map LogRecord.line = es.flatMap Event.lines := by
  rw [h.log_eq, recordsOf, List.map_flatMap]
  exact congrArg es.flatMap (funext Event.map_line_records)

theorem countP_debug (h : Tells es log answers) :
    log.countP (·.level == .debug) = answers.count false := by
  rw [h.log_eq, h.answers_eq]
  clear h
  induction es with
  | nil => rfl
  | cons e es ih =>
    have hrecords : recordsOf (e :: es) = e.records ++ recordsOf es := rfl
    have hanswers : answersOf (e :: es) = e.answer?.toList ++ answersOf es :=
      filterMap_cons_toList Event.answer? e es
    have he : e.records.countP (·.level == .debug) = e.answer?.toList.count false := by
      cases e with
      | write p n b => cases b <;> rfl
      | assign | assignNull | clear => rfl
      | join n m => by_cases h : n = m <;> simp [Event.records, Event.answer?, LogRecord.level, h]
    rw [hrecords, hanswers, List.countP_append, List.count_append, he, ih]

theorem countP_trace (h : Tells es log answers) :
    log.countP (·.level == .trace) = es.countP Event.isTraced := by
  rw [h.log_eq]
  clear h
  induction es with
  | nil => rfl
  | cons e es ih =>
    have hrecords : recordsOf (e :: es) = e.records ++ recordsOf es := rfl
    have he : e.records.countP (·.level == .trace) = if e.isTraced then 1 else 0 := by
      cases e with
      | write p n b => cases b <;> rfl
      | assign | assignNull | clear => rfl
      | join n m => by_cases h : n = m <;> simp [Event.records, Event.isTraced, LogRecord.level, h]
    rw [hrecords, List.countP_append, he, ih, List.countP_cons, Nat.add_comm]

end Tells

def ActionReply.answer? : ActionReply α → Option Bool
  | accepted b => some b
  | view _ => none

def Reply.answers : Except StepError (Reply t) → List Bool
  | .ok (.flag b) => [b]
  | .ok (.replies rs) => rs.filterMap ActionReply.answer?
  | _ => []

/-- What happens when an edit is made to a column of length `n`. -/
def Edit.events (n : Nat) : Edit α → List Event
  | .set i _ | .reset i | .assignHandle i _ | .resetHandle i => [.writeAt i.position? n]
  | .assign _ => [.assign n]
  | .assignNull => [.assignNull n]
  | .clear => [.clear n]
  | .push _ | .reserve _ | .shrinkToFit => []

def HandleAction.events (position : Option Nat) (n : Nat) : HandleAction α → List Event
  | .assign _ | .assignNull => [.writeAt position n]
  | .read => []

/-- The event of a call on what may be two columns. -/
def joinEvents : Option (Column α) → Option (Column β) → List Event
  | some c, some d => [.join c.length d.length]
  | _, _ => []

def Term.column? : Term α → Option (Column α)
  | operand (.column c _) => some c
  | _ => none

namespace Operation

/-- Two columns always fit, so they meet exactly if the element type has the operator or the method. -/
def events : Operation (Term t.Value) → List Event
  | binary op l r => if op.SuitedTo t then joinEvents l.column? r.column? else []
  | method m l r => if m.SuitedTo t then joinEvents l.column? r.column? else []
  | unary _ _ | logicalNot _ | equality _ _ => []

/-- The events of an operation on terms that may be named columns; there are none if a column is
missing. -/
def eventsIn (s : Store t.Value) (op : Operation (TermRef t.Value)) : List Event :=
  match op.resolve? (TermRef.resolve? s) with
  | some op => op.events
  | none => []

end Operation

namespace Step

/-- What happens in a step, given the store before it. -/
def events (s : Store t.Value) (step : Step t) : List Event :=
  match step.command, s.find? step.subject with
  | .edit e, some c => e.events c.length
  | .actions i as, some c => as.flatMap (HandleAction.events i.position? c.length)
  | .zip other _, some c => joinEvents (some c) (s.find? other)
  | .operate op _, _ => op.eventsIn s
  | _, _ => []

/-- What the writes to single slots in a step have answered. -/
def answers (s : Store t.Value) (step : Step t) : List Bool :=
  match step.command with
  | .edit e => if e.indexed?.isSome then Reply.answers (step.run s).2.result else []
  | .actions _ _ => Reply.answers (step.run s).2.result
  | _ => []

end Step

namespace Outcome

theorem log_bind_of_silent {x : Outcome ε α} {f : α → Outcome ε β} (h : ∀ a, (f a).log = []) :
    (x >>= f).log = x.log := by
  rcases x with ⟨e | a, log⟩
  · rfl
  · change log ++ (f a).log = log
    rw [h, List.append_nil]

end Outcome

section Calls

theorem paddingLog_column (c : Column α) (d : Column β) :
    c.paddingLog d.broadcast = recordsOf [.join c.length d.length] := by
  unfold Column.paddingLog recordsOf Event.records
  simp only [Column.broadcast, List.flatMap_singleton, eq_comm]

theorem paddingLog_term (c : Column α) (r : Term α) :
    c.paddingLog r.broadcast = recordsOf (joinEvents (some c) r.column?) := by
  rcases r with (_ | _ | ⟨d, q⟩) | l
  · rfl
  · rfl
  · exact paddingLog_column c d
  · rfl

theorem Operand.log_combine (f : α → α → Except Fault α) (l r : Operand α) :
    (l.combine f r).log =
      recordsOf (joinEvents (Term.operand l).column? (Term.operand r).column?) := by
  cases l with
  | nullable s => rfl
  | handle h p => rfl
  | column c p =>
    rw [combine, Outcome.log_map]
    exact paddingLog_term c (.operand r)

theorem log_combine? {f : α → α → Except Fault α} {l r : Term α} {x : Outcome Fault (Computed α)}
    (h : l.combine? f r = some x) : x.log = recordsOf (joinEvents l.column? r.column?) := by
  cases l with
  | operand l =>
    cases r with
    | operand r =>
      cases h
      exact l.log_combine f r
    | literal r =>
      cases h
      rw [Operand.combineLiteral_eq_combine, Operand.log_combine]
      cases l <;> rfl
  | literal l =>
    cases r with
    | operand r =>
      cases h
      rw [Literal.combine_eq_combine, Operand.log_combine]
      rfl
    | literal r => cases h

theorem log_call? {m : Method} {l r : Term t.Value} {x : Outcome Fault (Answer t)}
    (h : m.call? l r = some x) : x.log = recordsOf (joinEvents l.column? r.column?) := by
  rcases l with (s | ⟨k, p⟩ | ⟨c, p⟩) | a
  · obtain ⟨v, -, h⟩ := Option.bind_eq_some_iff.mp h
    obtain ⟨answer, -, h⟩ := Option.bind_eq_some_iff.mp h
    cases h
    rfl
  · obtain ⟨v, -, h⟩ := Option.bind_eq_some_iff.mp h
    obtain ⟨answer, -, h⟩ := Option.bind_eq_some_iff.mp h
    cases h
    rfl
  · exact (log_of_onColumn? h).trans (paddingLog_term c r)
  · cases h

theorem joinEvents_cases (l r : Term α) : joinEvents l.column? r.column? = [] ∨
    ∃ c p d q, l = Column.term c p ∧ r = Column.term d q := by
  rcases l with (_ | _ | ⟨c, p⟩) | _
  · exact .inl rfl
  · exact .inl rfl
  · rcases r with (_ | _ | ⟨d, q⟩) | _
    · exact .inl rfl
    · exact .inl rfl
    · exact .inr ⟨c, p, d, q, rfl, rfl⟩
    · exact .inl rfl
  · exact .inl rfl

/-- Where two columns meet, the operation runs. -/
theorem Operation.events_of_twoTerms
    {two : Term t.Value → Term t.Value → Operation (Term t.Value)} (h : TwoTerms two)
    (l r : Term t.Value) : (two l r).events =
      if (run? (two l r)).isSome then joinEvents l.column? r.column? else [] := by
  rcases joinEvents_cases l r with hnil | ⟨c, p, d, q, rfl, rfl⟩
  · cases h with
    | binary op | method m => rw [events, hnil, ite_self, ite_self]
  · cases h with
    | binary op => exact if_congr (run?_binary_columns_isSome_iff c d op p q).symm rfl rfl
    | method m => exact if_congr (run?_method_columns_isSome_iff c d m p q).symm rfl rfl

theorem Operation.events_of_run?_eq_none {op : Operation (Term t.Value)} (h : op.run? = none) :
    op.events = [] := by
  have htwo {two : Term t.Value → Term t.Value → Operation (Term t.Value)} (htwo : TwoTerms two)
      (l r : Term t.Value) (h : run? (two l r) = none) : (two l r).events = [] := by
    rw [events_of_twoTerms htwo, h]
    rfl
  cases op with
  | binary op l r => exact htwo (.binary op) l r h
  | method m l r => exact htwo (.method m) l r h
  | unary | logicalNot | equality => rfl

/-- The record on the padding is written before any slot is looked at, so the outcome does not matter. -/
theorem log_run? {op : Operation (Term t.Value)} {x : Outcome Fault (Answer t)}
    (h : op.run? = some x) : x.log = recordsOf op.events := by
  have hsome : op.run?.isSome := Option.isSome_of_eq_some h
  cases op with
  | binary op l r =>
    rw [Operation.events_of_twoTerms (.binary op), if_pos hsome]
    obtain ⟨f, -, h⟩ := Option.bind_eq_some_iff.mp h
    obtain ⟨outcome, houtcome, h⟩ := Option.bind_eq_some_iff.mp h
    cases h
    rw [Outcome.log_map]
    exact log_combine? houtcome
  | method m l r =>
    rw [Operation.events_of_twoTerms (.method m), if_pos hsome]
    exact log_call? h
  | unary op y =>
    cases y with
    | operand y =>
      obtain ⟨f, -, h⟩ := Option.bind_eq_some_iff.mp h
      cases h
      rfl
    | literal l => cases h
  | logicalNot y =>
    cases y with
    | operand y =>
      obtain ⟨truthy, -, h⟩ := Option.bind_eq_some_iff.mp h
      cases h
      rfl
    | literal l => cases h
  | equality l r =>
    obtain ⟨same, -, h⟩ := Option.bind_eq_some_iff.mp h
    cases h
    rfl

theorem answersOf_joinEvents (c : Option (Column α)) (d : Option (Column β)) :
    answersOf (joinEvents c d) = [] := by
  cases c <;> cases d <;> rfl

theorem Operation.answersOf_events (op : Operation (Term t.Value)) : answersOf op.events = [] := by
  cases op with
  | binary | method =>
    rw [events]
    split
    · exact answersOf_joinEvents _ _
    · rfl
  | unary | logicalNot | equality => rfl

theorem SlotJoin.log_apply (f : SlotJoin) (c d : Column t.Value) :
    (f.apply c d : Outcome ε _).log = recordsOf [.join c.length d.length] := by
  rw [← paddingLog_column]
  cases f <;> exact Outcome.log_map _ _

theorem Step.tells_answer (s : Store t.Value) (op : Operation (TermRef t.Value)) :
    Tells (op.eventsIn s) (Step.answer s op).log [] := by
  unfold Step.answer Operation.eventsIn
  cases op.resolve? (TermRef.resolve? s) with
  | none => exact ⟨rfl, rfl⟩
  | some op =>
    refine ⟨?_, op.answersOf_events.symm⟩
    cases h : op.run? with
    | none =>
      simp only [h, Operation.events_of_run?_eq_none h]
      rfl
    | some x =>
      simp only [h]
      exact log_run? h

end Calls

section Writes

theorem Column.write_tells (c : Column α) (position : Option Nat) (s : Nullable α) :
    ∃ d b log, (c.write position s : Outcome ε _) = ⟨.ok (d, b), log⟩ ∧
      Tells [.writeAt position c.length] log [b] ∧ d.length = c.length := by
  rcases c.write_cases (ε := ε) position s with ⟨n, hn, rfl, hw⟩ | ⟨hout, hw⟩
  · have hevent : Event.writeAt (some n) c.length = .write (some n) c.length true := by
      simp [Event.writeAt, hn]
    refine ⟨_, true, [], hw, ?_, c.length_set_slots n s⟩
    rw [hevent]
    exact ⟨rfl, rfl⟩
  · have hevent : Event.writeAt position c.length = .write position c.length false := by
      cases position with
      | none => rfl
      | some n => simp [Event.writeAt, hout n rfl]
    refine ⟨c, false, _, hw, ?_, rfl⟩
    rw [hevent]
    exact ⟨rfl, rfl⟩

theorem Edit.tells_run (limit : Nat) (c : Column t.Value) (e : Edit t.Value) :
    let result := ((e.reply limit c).mapError StepError.fault).map (EditReply.reply (t := t))
    Tells (e.events c.length) (e.run limit c).log
      (if e.indexed?.isSome then Reply.answers result else []) := by
  have hindexed {i s} (h : e.indexed? = some (i, s)) : ∃ b, e.reply limit c = .ok (.flag b) ∧
      Tells [.writeAt i.position? c.length] (e.run limit c).log [b] := by
    obtain ⟨d, b, log, hw, htells, -⟩ := c.write_tells (ε := Fault) i.position? s
    rw [Edit.reply, Edit.run_of_indexed? h, hw]
    exact ⟨b, rfl, by rwa [Outcome.log_map]⟩
  cases e with
  | set | reset | assignHandle | resetHandle =>
    obtain ⟨b, hreply, htells⟩ := hindexed rfl
    rw [hreply]
    exact htells
  | reserve n =>
    have hrun : (Edit.reserve n).run limit c = (·, .flag true) <$> c.reserve limit n := rfl
    rw [hrun, Outcome.log_map, Column.reserve]
    split <;> exact ⟨rfl, rfl⟩
  | push | assign | assignNull | clear | shrinkToFit => exact ⟨rfl, rfl⟩

theorem Handle.act_tells (text : α → String) (h : Handle α) (a : HandleAction α) :
    ∃ k r log, (h.act text a : Outcome ε _) = ⟨.ok (k, r), log⟩ ∧
      Tells (a.events h.position h.column.length) log r.answer?.toList ∧
      k.position = h.position ∧ k.column.length = h.column.length := by
  have hassign (s : Nullable α) : ∃ k b log, (h.assign s : Outcome ε _) = ⟨.ok (k, b), log⟩ ∧
      Tells [.writeAt h.position h.column.length] log [b] ∧
      k.position = h.position ∧ k.column.length = h.column.length := by
    obtain ⟨d, b, log, hw, htells, hl⟩ := h.column.write_tells (ε := ε) h.position s
    refine ⟨⟨d, h.position⟩, b, log, ?_, htells, rfl, hl⟩
    rw [Handle.assign_eq_map, hw, Outcome.map_mk_ok]
  cases a with
  | assign s =>
    obtain ⟨k, b, log, hw, hk⟩ := hassign s
    refine ⟨k, .accepted b, log, ?_, hk⟩
    rw [Handle.act, hw, Outcome.map_mk_ok]
  | assignNull =>
    obtain ⟨k, b, log, hw, hk⟩ := hassign .null
    refine ⟨k, .accepted b, log, ?_, hk⟩
    rw [Handle.act, Handle.assignNull, hw, Outcome.map_mk_ok]
  | read => exact ⟨h, .view (h.view text), [], rfl, ⟨rfl, rfl⟩, rfl, rfl⟩

/-- The position and the length of the column stay as they are, so the first ones tell of every write. -/
theorem Handle.actAll_tells (text : α → String) (h : Handle α) (as : List (HandleAction α)) :
    ∃ k rs log, (h.actAll text as : Outcome ε _) = ⟨.ok (k, rs), log⟩ ∧
      Tells (as.flatMap (HandleAction.events h.position h.column.length)) log
        (rs.filterMap ActionReply.answer?) := by
  induction as generalizing h with
  | nil => exact ⟨h, [], [], rfl, rfl, rfl⟩
  | cons a as ih =>
    obtain ⟨k, r, log, hact, first, hp, hl⟩ := h.act_tells (ε := ε) text a
    obtain ⟨m, rs, more, hall, rest⟩ := ih k
    rw [hp, hl] at rest
    refine ⟨m, r :: rs, log ++ more, ?_, ?_⟩
    · simp only [Handle.actAll, hact, bind, Outcome.andThen, hall, pure, Outcome.ok, List.append_nil]
    · rw [List.flatMap_cons, filterMap_cons_toList]
      exact first.append rest

end Writes

section Steps

variable {s : Store t.Value} {name : String}

theorem Step.outcome_of_missing (step : Step t) (h : s.find? step.subject = none)
    {f : Column t.Value → Outcome StepError (Store t.Value × Reply t)}
    (hout : step.outcome s = step.subjectIn s >>= f) : step.outcome s = .error .missingColumn := by
  rw [hout, Step.subjectIn, h]
  rfl

theorem Step.outcome_of_found (step : Step t) {c : Column t.Value}
    (h : s.find? step.subject = some c)
    {f : Column t.Value → Outcome StepError (Store t.Value × Reply t)}
    (hout : step.outcome s = step.subjectIn s >>= f) : step.outcome s = f c := by
  rw [hout, Access.subjectIn_eq_pure step h, pure_bind]

theorem Step.result_of_outcome {step : Step t} {x : Outcome StepError (Store t.Value × Reply t)}
    (h : step.outcome s = x) : (step.run s).2.result = x.result.map Prod.snd := by
  rw [← h]
  rfl

theorem Step.tells_query (s : Store t.Value) (name : String) (q : Query t) :
    Tells [] (Step.outcome s ⟨name, .query q⟩).log [] := by
  cases h : s.find? name with
  | none =>
    rw [Step.outcome_of_missing ⟨name, .query q⟩ h rfl]
    exact ⟨rfl, rfl⟩
  | some c =>
    rw [Step.outcome_of_found ⟨name, .query q⟩ h rfl]
    exact ⟨Outcome.log_bind_of_silent fun _ => rfl, rfl⟩

theorem Step.tells_edit (s : Store t.Value) (name : String) (e : Edit t.Value) :
    Tells (Step.events s ⟨name, .edit e⟩) (Step.outcome s ⟨name, .edit e⟩).log
      (Step.answers s ⟨name, .edit e⟩) := by
  unfold Step.events Step.answers
  cases h : s.find? name with
  | none =>
    have hout := Step.outcome_of_missing ⟨name, .edit e⟩ h rfl
    rw [hout, Step.result_of_outcome hout]
    refine ⟨rfl, ?_⟩
    dsimp only
    split <;> rfl
  | some c =>
    have hlog : (Step.outcome s ⟨name, .edit e⟩).log = (e.run t.maxSlots c).log := by
      rw [Step.outcome_of_found ⟨name, .edit e⟩ h rfl]
      exact Outcome.log_bind_of_silent fun _ => rfl
    rw [hlog, (Access.run_edit h e).2]
    exact Edit.tells_run t.maxSlots c e

theorem Step.tells_actions (s : Store t.Value) (name : String) (i : SlotIndex)
    (as : List (HandleAction t.Value)) :
    Tells (Step.events s ⟨name, .actions i as⟩) (Step.outcome s ⟨name, .actions i as⟩).log
      (Step.answers s ⟨name, .actions i as⟩) := by
  unfold Step.events Step.answers
  cases h : s.find? name with
  | none =>
    have hout := Step.outcome_of_missing ⟨name, .actions i as⟩ h rfl
    rw [hout, Step.result_of_outcome hout]
    exact ⟨rfl, rfl⟩
  | some c =>
    obtain ⟨k, rs, log, hall, htells⟩ := (c.handle i).actAll_tells (ε := StepError) t.display as
    have hout : Step.outcome s ⟨name, .actions i as⟩ =
        ⟨.ok (s.insert name k.column, .replies rs), log⟩ := by
      rw [Step.outcome_of_found ⟨name, .actions i as⟩ h rfl, hall]
      exact Outcome.map_mk_ok _ _ _
    rw [hout, Step.result_of_outcome hout]
    exact htells

theorem Step.tells_zip (s : Store t.Value) (name other : String) (f : SlotJoin) :
    Tells (Step.events s ⟨name, .zip other f⟩) (Step.outcome s ⟨name, .zip other f⟩).log [] := by
  unfold Step.events
  cases h : s.find? name with
  | none =>
    rw [Step.outcome_of_missing ⟨name, .zip other f⟩ h rfl]
    exact ⟨rfl, rfl⟩
  | some c =>
    rw [Step.outcome_of_found ⟨name, .zip other f⟩ h rfl]
    refine ⟨?_, (answersOf_joinEvents _ _).symm⟩
    dsimp only
    cases s.find? other with
    | none => rfl
    | some d => exact (Outcome.log_bind_of_silent fun _ => rfl).trans (f.log_apply c d)

theorem Step.log_operate (s : Store t.Value) (name : String) (op : Operation (TermRef t.Value))
    (store : Bool) : (Step.outcome s ⟨name, .operate op store⟩).log = (Step.answer s op).log := by
  unfold Step.outcome
  apply Outcome.log_bind_of_silent
  intro answer
  dsimp only
  split <;> rfl

/-- A step tells its events, also if it fails. -/
theorem Step.tells_run (s : Store t.Value) (step : Step t) :
    Tells (step.events s) (step.run s).2.log (step.answers s) := by
  obtain ⟨name, command⟩ := step
  cases command with
  | create | drop => exact ⟨rfl, rfl⟩
  | query q => exact Step.tells_query s name q
  | edit e => exact Step.tells_edit s name e
  | actions i as => exact Step.tells_actions s name i as
  | zip other f => exact Step.tells_zip s name other f
  | operate op store =>
    have hlog := Step.log_operate s name op store
    have htells := Step.tells_answer s op
    rw [← hlog] at htells
    exact htells

end Steps

/-- A function with a state that writes no records of its own. -/
def Stateful.Silent (x : Stateful σ ε α) : Prop := ∀ st, (x.run st).1.log = []

section Functions

theorem Calls.log_of_silent {f : α → β → Stateful σ ε γ} (hf : ∀ x y, (f x y).Silent)
    {args made : List (α × β)} {st st₁ : σ} {o : Outcome ε (List γ)}
    (h : Calls f args st made o st₁) : o.log = [] := by
  have hcall {x y} {o : Outcome ε γ} {st st₁ : σ} (call : (f x y).run st = (o, st₁)) : o.log = [] := by
    have hlog := hf x y st
    rwa [call] at hlog
  induction h with
  | nil st => rfl
  | cons call later ih => exact List.append_eq_nil_iff.mpr ⟨hcall call, ih⟩
  | fail call => exact hcall call

/-- A map is a joining function that does not look at what it is joined with. -/
theorem Column.log_mapM {f : Nullable α → Stateful σ ε (Nullable β)} (hf : ∀ x, (f x).Silent)
    (c : Column α) (st : σ) : ((c.mapM f).run st).1.log = [] := by
  obtain ⟨made, o, st₁, hcalls, hrun⟩ :=
    Calls.exists_of_mapM (fun x (_ : Unit) => f x) (c.slots.map fun x => (x, ())) st
  rw [List.mapM_map] at hrun
  rw [Column.mapM, Stateful.run_map, Outcome.log_map]
  exact (congrArg (·.1.log) hrun).trans (hcalls.log_of_silent fun x _ => hf x)

theorem Column.log_join {f : Nullable α → Nullable β → Stateful σ ε (Nullable γ)}
    (hf : ∀ x y, (f x y).Silent) (c : Column α) (d : Column β) (st : σ) :
    ((c.join f d.broadcast).run st).1.log = recordsOf [.join c.length d.length] := by
  obtain ⟨made, o, st₁, hcalls, hrun⟩ := c.calls_zipWithM f d st
  rw [Column.run_join, hrun, Outcome.log_map, hcalls.log_of_silent hf, List.append_nil]
  exact paddingLog_column c d

end Functions

/-- The named columns of every element type. -/
def Stores : Type := (t : ElementType) → Store t.Value

/-- One operation of a run. -/
inductive Move : Type 1 where
  | step {t : ElementType} (step : Step t)
  /-- Columns are mapped and joined by any functions, for a join also with another element type. -/
  | map {t : ElementType} {σ ε γ : Type} (c : ColumnRef t.Value)
      (f : Nullable t.Value → Stateful σ ε (Nullable γ)) (silent : ∀ x, (f x).Silent) (start : σ)
  | join {t u : ElementType} {σ ε γ : Type} (c : ColumnRef t.Value) (d : ColumnRef u.Value)
      (f : Nullable t.Value → Nullable u.Value → Stateful σ ε (Nullable γ))
      (silent : ∀ x y, (f x y).Silent) (start : σ)

namespace Move

def after (w : Stores) : Move → Stores
  | @step t s => Function.update w t (s.run (w t)).1
  | _ => w

def log (w : Stores) : Move → List LogRecord
  | @step t s => (s.run (w t)).2.log
  | map c f _ start =>
    match c.resolve? (w _) with
    | some c => ((c.mapM f).run start).1.log
    | none => []
  | join c d f _ start =>
    match c.resolve? (w _), d.resolve? (w _) with
    | some c, some d => ((c.join f d.broadcast).run start).1.log
    | _, _ => []

def events (w : Stores) : Move → List Event
  | @step t s => s.events (w t)
  | map .. => []
  | join c d _ _ _ => joinEvents (c.resolve? (w _)) (d.resolve? (w _))

def answers (w : Stores) : Move → List Bool
  | @step t s => s.answers (w t)
  | _ => []

/-- What the moves of a run give, one after the other. -/
def overRun {δ : Type} (f : Stores → Move → List δ) (w : Stores) : List Move → List δ
  | [] => []
  | m :: ms => f w m ++ overRun f (m.after w) ms

variable (w : Stores)

theorem tells_events (m : Move) : Tells (m.events w) (m.log w) (m.answers w) := by
  cases m with
  | step s => exact s.tells_run _
  | map c f silent start =>
    refine ⟨?_, rfl⟩
    simp only [log]
    split
    · exact Column.log_mapM silent _ start
    · rfl
  | join c d f silent start =>
    simp only [log, events, answers]
    refine ⟨?_, (answersOf_joinEvents _ _).symm⟩
    cases c.resolve? (w _) with
    | none => rfl
    | some c =>
      cases d.resolve? (w _) with
      | none => rfl
      | some d => exact Column.log_join silent c d start

theorem tells_overRun (ms : List Move) :
    Tells (overRun events w ms) (overRun log w ms) (overRun answers w ms) := by
  induction ms generalizing w with
  | nil => exact ⟨rfl, rfl⟩
  | cons m ms ih => exact (m.tells_events w).append (ih (m.after w))

/-- A session is a run of its steps, on the columns of its element type. -/
theorem overRun_steps (steps : List (Step t)) :
    overRun log w (steps.map step) = (Step.runAll (w t) steps).flatMap Report.log := by
  induction steps generalizing w with
  | nil => rfl
  | cons s steps ih =>
    have hafter : (step s).after w t = (s.run (w t)).1 := Function.update_self _ _ _
    rw [List.map_cons, overRun, ih, hafter]
    rfl

end Move

/-- The log of a run on any columns is made of the records of its events, in order, and the writes to
single slots answer as their events say. A refused write is recorded with its position and the length at
that moment; a write to a whole column always, with the length before it; a call of an operator, a method
or a function if it joins two columns of different lengths, once, and also if it fails at a slot. Nothing
else is recorded, so as many records stand at the debug level as writes have answered with a refusal.
The log of a session is that of the run of its steps. -/
theorem log_of_run (w : Stores) (ms : List Move) :
    let events := Move.overRun Move.events w ms
    let log := Move.overRun Move.log w ms
    let answers := Move.overRun Move.answers w ms
    log = events.flatMap Event.records ∧
    log.map LogRecord.line = events.flatMap Event.lines ∧
    answers = events.filterMap Event.answer? ∧
    log.countP (·.level == .debug) = answers.count false ∧
    log.countP (·.level == .trace) = events.countP Event.isTraced ∧
    ∀ (t : ElementType) (steps : List (Step t)),
      (Step.runAll (w t) steps).flatMap Report.log =
        (Move.overRun Move.events w (steps.map .step)).flatMap Event.records := by
  intro events log answers
  have htells : Tells events log answers := Move.tells_overRun w ms
  refine ⟨htells.log_eq, htells.lines_eq, htells.answers_eq, htells.countP_debug,
    htells.countP_trace, ?_⟩
  intro t steps
  rw [← Move.overRun_steps]
  exact (Move.tells_overRun w (steps.map .step)).log_eq

/-- The padding is recorded although the first slot overflows. -/
example :
    (Step.runAll (t := .int .i32) .empty
      [⟨"a", .create (.values [.wrap _ 2147483647])⟩,
        ⟨"b", .create (.values [.wrap _ 1, .wrap _ 1])⟩,
        ⟨"c", .operate (.binary .add (.column (.named "a")) (.column (.named "b"))) true⟩,
        ⟨"b", .edit (.reset ⟨.i32, by decide, .wrap .i32 (-1)⟩)⟩]).flatMap Report.log =
      [.padding 1 2, .ignoredWrite none 2] := by
  decide

end ColumnAlgebra
