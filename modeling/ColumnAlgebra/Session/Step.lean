import ColumnAlgebra.Column.Edit
import ColumnAlgebra.Handle.Action
import ColumnAlgebra.Session.SlotFunction
import ColumnAlgebra.Session.Store

/-!
# Sessions

A session runs steps on a store of named columns. A step has one column as its subject and replies
with a result, the records written and the subject afterwards. A step that fails leaves the store as it
was, and the steps after it run.
-/

namespace ColumnAlgebra
set_option autoImplicit false

inductive Creation (α : Type) where
  | empty
  | values (values : List α)
  | slots (slots : List (Nullable α))
  | nulls (n : Nat)

def Creation.column {α : Type} : Creation α → Column α
  | empty => .empty
  | values vs => .ofValues vs
  | slots ss => ⟨ss⟩
  | nulls n => .nulls n

/-- What is asked of a column without changing it. -/
inductive Query (t : ElementType) where
  | slotAt (i : SlotIndex)
  | trySlotAt (i : SlotIndex)
  | find (i : SlotIndex)
  | front
  | back
  | counts
  | maxSlots
  | element (i : SlotIndex)
  | display
  | traverse
  | map (f : SlotMap t.Value)

inductive Command (t : ElementType) where
  | create (how : Creation t.Value)
  | drop
  | query (q : Query t)
  | edit (e : Edit t.Value)
  | actions (i : SlotIndex) (actions : List (HandleAction t.Value))
  | zip (other : String) (f : SlotJoin)
  | operate (op : Operation (TermRef t.Value)) (store : Bool)

structure Step (t : ElementType) where
  subject : String
  command : Command t

structure Counts where
  length : Nat
  isEmpty : Bool
  nullCount : Nat

/-- A column seen by every way of going through its slots. -/
structure Traversal (α : Type) where
  slots : List (Nullable α)
  nulls : List Bool
  reversed : List (Nullable α)
  present : List α
  firstText : Option String

def Column.counts {α : Type} (c : Column α) : Counts := ⟨c.length, c.isEmpty, c.nullCount⟩

def Column.traverse {α : Type} (text : α → String) (c : Column α) : Traversal α :=
  { slots := c.slots
    nulls := c.slots.map Nullable.isNull
    reversed := c.slots.reverse
    present := c.present
    firstText := c.slots.head?.map (·.display text) }

inductive Reply (t : ElementType) where
  | created
  | done
  | flag (b : Bool)
  | slot (s : Nullable t.Value)
  | found (s : Option (Nullable t.Value))
  | counts (c : Counts)
  | number (n : Nat)
  | view (v : HandleView t.Value)
  | replies (rs : List (ActionReply t.Value))
  | text (s : String)
  | traversal (x : Traversal t.Value)
  | column (c : MadeColumn t)
  | answer (a : Answer t)

inductive StepError where
  | fault (f : Fault)
  | column (e : ColumnError)
  | missingColumn
  | unsupported

structure Report (t : ElementType) where
  result : Except StepError (Reply t)
  log : List LogRecord
  /-- The subject after the step. -/
  state : Option (Column t.Value)

variable {t : ElementType}

/-- The column of elements in an answer; truth values are elements of their own type. -/
def Answer.column? : {t : ElementType} → Answer t → Option (Column t.Value)
  | _, .elements (.column c) => some c
  | .bool, .truths (.column c) => some c
  | _, _ => none

def EditReply.reply : EditReply → Reply t
  | done => .done
  | flag b => .flag b

def Query.reply (c : Column t.Value) : Query t → Except ColumnError (Reply t)
  | slotAt i => .ok (.slot (c.slotAt i))
  | trySlotAt i => .slot <$> c.trySlotAt i
  | find i => .ok (.found (c.slotAt? i))
  | front => .slot <$> c.front
  | back => .slot <$> c.back
  | counts => .ok (.counts c.counts)
  | maxSlots => .ok (.number t.maxSlots)
  | element i => .ok (.view ((c.handle i).view t.display))
  | display => .ok (.text (c.display t.display))
  | traverse => .ok (.traversal (c.traverse t.display))
  | map f => .ok (.column (f.apply c))

namespace Step

def subjectIn (step : Step t) (s : Store t.Value) : Outcome StepError (Column t.Value) :=
  match s.find? step.subject with
  | some c => pure c
  | none => .error .missingColumn

/-- The answer of an operation whose terms may be named columns. -/
def answer (s : Store t.Value) (op : Operation (TermRef t.Value)) : Outcome StepError (Answer t) :=
  match op.resolve? (TermRef.resolve? s) with
  | none => .error .missingColumn
  | some op =>
    match op.run? with
    | none => .error .unsupported
    | some outcome => outcome.mapError .fault

/-- The store after the step, and the reply. -/
def outcome (s : Store t.Value) (step : Step t) : Outcome StepError (Store t.Value × Reply t) :=
  match step.command with
  | .create how => pure (s.insert step.subject how.column, .created)
  | .drop => pure (s.erase step.subject, .flag (s.find? step.subject).isSome)
  | .query q => do
    let c ← step.subjectIn s
    let reply ← .ofExcept ((q.reply c).mapError .column)
    pure (s, reply)
  | .edit e => do
    let c ← step.subjectIn s
    let (c, reply) ← (e.run t.maxSlots c).mapError .fault
    pure (s.insert step.subject c, reply.reply)
  | .actions i as => do
    let c ← step.subjectIn s
    let (h, replies) ← (c.handle i).actAll t.display as
    pure (s.insert step.subject h.column, .replies replies)
  | .zip other f => do
    let c ← step.subjectIn s
    match s.find? other with
    | some d => do
      let made ← f.apply c d
      pure (s, .column made)
    | none => .error .missingColumn
  | .operate op store => do
    let answer ← answer s op
    match store, answer.column? with
    | true, some c => pure (s.insert step.subject c, .answer answer)
    | _, _ => pure (s, .answer answer)

def run (s : Store t.Value) (step : Step t) : Store t.Value × Report t :=
  let x := step.outcome s
  let after := match x.result with
    | .ok (s, _) => s
    | .error _ => s
  (after, ⟨x.result.map Prod.snd, x.log, after.find? step.subject⟩)

/-- The reports of the steps, each on the store that the ones before it left. -/
def runAll (s : Store t.Value) : List (Step t) → List (Report t)
  | [] => []
  | step :: rest =>
    let (s, report) := step.run s
    report :: runAll s rest

end Step
end ColumnAlgebra
