import ColumnAlgebra.Handle.Action
import ColumnAlgebra.Proofs.Spread

/-!
# Runs on a handle against indexed access

Whatever is done through a handle could be done with the column and the index: a write is a write at the
index, a read shows the slot there, and an operator sees that slot as a nullable. The step lemma says so
for one use of the handle, and the run lemma carries it through any sequence of uses, records included.
Main statement: both runs have the same replies, records and column, which differs from the first one
only in the slot at the index, and there it shows the last write.
-/

namespace ColumnAlgebra
set_option autoImplicit false

/-- A term of an operation on a handle: the handle itself or anything else. A handle that may write
stands for itself either lent or as a second handle that may only read, which is given away. -/
inductive HandleTerm (α : Type) where
  | self (passing : Passing)
  | other (x : Term α)

def HandleTerm.fill {α : Type} (self : Passing → Operand α) : HandleTerm α → Term α
  | .self passing => .operand (self passing)
  | .other x => x

variable {α ε : Type} {t : ElementType}

def Operation.runWith? (op : Operation (HandleTerm t.Value)) (self : Passing → Operand t.Value) :
    Option (Outcome Fault (Answer t)) := do
  let op ← op.resolve? fun x => some (x.fill self)
  op.run?

/-- An operation that handles have. -/
structure HandleOperation (t : ElementType) where
  operation : Operation (HandleTerm t.Value)
  offered : ∀ h : Handle t.Value, (operation.runWith? (.handle h)).isSome

example (h : Handle (FixedInt .i32)) (s : Nullable (FixedInt .i32)) :
    ((Operation.binary .add (.self .lent) (.other (.operand (.nullable s)))).runWith?
      (t := .int .i32) (.handle h)).isSome = true := rfl

inductive HandleUse (t : ElementType) where
  | act (a : HandleAction t.Value)
  | operate (op : HandleOperation t)

/-- An operation that has a fault replies with the fault, and the handle stays usable. -/
inductive UseReply (t : ElementType) where
  | act (r : ActionReply t.Value)
  | answer (x : Option (Except Fault (Answer t)))

def answered : Option (Outcome Fault (Answer t)) → Outcome ε (UseReply t)
  | some x => ⟨.ok (.answer (some x.result)), x.log⟩
  | none => pure (.answer none)

namespace Handle

def use (h : Handle t.Value) : HandleUse t → Outcome ε (Handle t.Value × UseReply t)
  | .act a => (fun (h, r) => (h, .act r)) <$> h.act t.display a
  | .operate op => (h, ·) <$> answered (op.operation.runWith? (.handle h))

def useAll (h : Handle t.Value) :
    List (HandleUse t) → Outcome ε (Handle t.Value × List (UseReply t))
  | [] => pure (h, [])
  | u :: rest => do
    let (h, reply) ← h.use u
    let (h, replies) ← h.useAll rest
    pure (h, reply :: replies)

end Handle

namespace Column

def viewAt (text : α → String) (c : Column α) (i : SlotIndex) : HandleView α :=
  { position := i.position?
    slot := c.slotAt i
    hasValue := (c.slotAt i).hasValue
    value := (c.slotAt i).toOption
    tryValue := (c.slotAt i).tryValue
    display := (c.slotAt i).display text }

def actAt (text : α → String) (c : Column α) (i : SlotIndex) :
    HandleAction α → Outcome ε (Column α × ActionReply α)
  | .assign s => (fun (d, b) => (d, .accepted b)) <$> c.set i s
  | .assignNull => (fun (d, b) => (d, .accepted b)) <$> c.reset i
  | .read => pure (c, .view (c.viewAt text i))

/-- What a use of the handle at an index is to the column. -/
def useAt (c : Column t.Value) (i : SlotIndex) :
    HandleUse t → Outcome ε (Column t.Value × UseReply t)
  | .act a => (fun (d, r) => (d, .act r)) <$> c.actAt t.display i a
  | .operate op => (c, ·) <$> answered (op.operation.runWith? fun _ => .nullable (c.slotAt i))

def useAllAt (c : Column t.Value) (i : SlotIndex) :
    List (HandleUse t) → Outcome ε (Column t.Value × List (UseReply t))
  | [] => pure (c, [])
  | u :: rest => do
    let (d, reply) ← c.useAt i u
    let (d, replies) ← d.useAllAt i rest
    pure (d, reply :: replies)

end Column

section Simulation

variable (c : Column α) (i : SlotIndex)

theorem get_handle : (c.handle i).get = c.slotAt i := rfl

theorem hasValue_handle : (c.handle i).hasValue = (c.slotAt i).hasValue := by
  unfold Handle.hasValue Column.handle Column.slotAt Column.slot
  cases i.position? with
  | none => rfl
  | some n =>
    change (c.slots[n]?).any Nullable.hasValue = _
    cases h : c.slots[n]? <;> simp [h, Nullable.hasValue]

theorem view_handle (text : α → String) : (c.handle i).view text = c.viewAt text i := by
  unfold Handle.view
  rw [hasValue_handle]
  rfl

theorem act_handle (text : α → String) (a : HandleAction α) :
    ((c.handle i).act text a : Outcome ε _) =
      (fun (d, r) => (d.handle i, r)) <$> c.actAt text i a := by
  cases a with
  | assign | assignNull =>
    simp only [Handle.act, Handle.assignNull, Handle.assign_eq_map, Column.actAt, Functor.map_map]
    rfl
  | read =>
    simp only [Handle.act, Column.actAt, view_handle, map_pure]

end Simulation

section Operations

variable {h : Handle α}

theorem slot?_fill (x : HandleTerm α) :
    (x.fill (.handle h)).slot? = (x.fill fun _ => .nullable h.get).slot? := by
  cases x <;> rfl

theorem broadcast_fill (x : HandleTerm α) :
    (x.fill (.handle h)).broadcast = (x.fill fun _ => .nullable h.get).broadcast := by
  cases x <;> rfl

theorem combine?_fill (f : α → α → Except Fault α) (l r : HandleTerm α) :
    Term.combine? f (l.fill (.handle h)) (r.fill (.handle h)) =
      Term.combine? f (l.fill fun _ => .nullable h.get) (r.fill fun _ => .nullable h.get) := by
  rcases l with _ | (⟨_ | _ | _⟩ | ⟨_ | _⟩) <;> rcases r with _ | (_ | ⟨_ | _⟩) <;> rfl

/-- As a whole a handle is compared only to a nullable or a bare value on its right. -/
theorem equal?_fill {eq : α → α → Bool} {l r : HandleTerm α} {b : Bool}
    (hb : (l.fill (.handle h)).equal? eq (r.fill (.handle h)) = some b) :
    (l.fill fun _ => .nullable h.get).equal? eq (r.fill fun _ => .nullable h.get) = some b := by
  cases l with
  | self p =>
    rcases r with q | (⟨s | k | c⟩ | ⟨a | _⟩)
    · cases hb
    · exact hb
    · cases hb
    · cases hb
    · exact hb
    · cases hb
  | other y =>
    cases r with
    | self q => rcases y with (⟨s | k | c⟩ | ⟨a | _⟩) <;> cases hb
    | other x => exact hb

theorem onSlot?_of_onHandle? {m : Method} {h : Handle t.Value} {s : Nullable t.Value}
    {answer : Answer t} (ha : m.onHandle? h s = some answer) :
    m.onSlot? h.get s = some answer := by
  cases m with
  | checked op => cases ha
  | equal | notEqual | compare | connect => exact ha

theorem call?_congr (m : Method) (l : Term t.Value) {r r' : Term t.Value}
    (hs : r.slot? = r'.slot?) (hb : r.broadcast = r'.broadcast) : m.call? l r = m.call? l r' := by
  rcases l with (⟨_ | _ | _⟩ | _) <;> simp only [Method.call?, hs, hb]

theorem call?_fill {m : Method} {l r : HandleTerm t.Value} {h : Handle t.Value}
    {x : Outcome Fault (Answer t)}
    (hx : m.call? (l.fill (.handle h)) (r.fill (.handle h)) = some x) :
    m.call? (l.fill fun _ => .nullable h.get) (r.fill fun _ => .nullable h.get) = some x := by
  rw [call?_congr m _ (slot?_fill r) (broadcast_fill r)] at hx
  cases l with
  | self p =>
    obtain ⟨s, hs, hx⟩ := Option.bind_eq_some_iff.mp hx
    obtain ⟨answer, ha, hx⟩ := Option.bind_eq_some_iff.mp hx
    apply Option.bind_eq_some_iff.mpr ⟨s, hs, ?_⟩
    exact Option.bind_eq_some_iff.mpr ⟨answer, onSlot?_of_onHandle? ha, hx⟩
  | other y => exact hx

end Operations

/-- Where a handle has the operation, its slot as a nullable has it too, with the same outcome. -/
theorem runWith?_handle {op : Operation (HandleTerm t.Value)} {h : Handle t.Value}
    {x : Outcome Fault (Answer t)} (hx : op.runWith? (.handle h) = some x) :
    op.runWith? (fun _ => .nullable h.get) = some x := by
  cases op with
  | binary op l r =>
    obtain ⟨f, hf, hx⟩ := Option.bind_eq_some_iff.mp hx
    rw [combine?_fill] at hx
    exact Option.bind_eq_some_iff.mpr ⟨f, hf, hx⟩
  | unary op y =>
    rcases y with p | (⟨_ | _ | _⟩ | _) <;> exact hx
  | logicalNot y =>
    rcases y with p | (⟨_ | _ | _⟩ | _) <;> exact hx
  | method m l r => exact call?_fill hx
  | equality l r =>
    obtain ⟨b, hb, hx⟩ := Option.bind_eq_some_iff.mp hx
    exact Option.bind_eq_some_iff.mpr ⟨b, equal?_fill hb, hx⟩

section Runs

variable (c : Column t.Value) (i : SlotIndex)

theorem use_handle (u : HandleUse t) : ((c.handle i).use u : Outcome ε _) =
    (fun (d, r) => (d.handle i, r)) <$> c.useAt i u := by
  cases u with
  | act a =>
    simp only [Handle.use, Column.useAt, act_handle, Functor.map_map]
  | operate op =>
    obtain ⟨x, hx⟩ := Option.isSome_iff_exists.mp (op.offered (c.handle i))
    have hslot := runWith?_handle hx
    rw [get_handle] at hslot
    simp only [Handle.use, Column.useAt, hx, hslot, Functor.map_map]

theorem useAll_handle (us : List (HandleUse t)) : ((c.handle i).useAll us : Outcome ε _) =
    (fun (d, rs) => (d.handle i, rs)) <$> c.useAllAt i us := by
  induction us generalizing c with
  | nil => rfl
  | cons u us ih =>
    simp only [Handle.useAll, Column.useAllAt, use_handle, bind_map_left, map_bind, ih, map_pure]

theorem useAll_append (h : Handle t.Value) (us later : List (HandleUse t)) :
    (h.useAll (us ++ later) : Outcome ε _) =
      h.useAll us >>= fun (k, rs) => (fun (m, more) => (m, rs ++ more)) <$> k.useAll later := by
  induction us generalizing h with
  | nil => simp [Handle.useAll]
  | cons u us ih =>
    simp only [List.cons_append, Handle.useAll, ih, bind_assoc, pure_bind, map_eq_pure_bind]

/-- Without operators, the run is that of the actions. -/
theorem useAll_map_act (h : Handle t.Value) (as : List (HandleAction t.Value)) :
    (h.useAll (as.map .act) : Outcome ε _) =
      (fun (k, rs) => (k, rs.map .act)) <$> h.actAll t.display as := by
  induction as generalizing h with
  | nil => rfl
  | cons a as ih =>
    simp only [List.map_cons, Handle.useAll, Handle.actAll, Handle.use, ih, bind_map_left, map_bind,
      map_pure]

end Runs

def HandleUse.written? : HandleUse t → Option (Nullable t.Value)
  | .act (.assign s) => some s
  | .act .assignNull => some .null
  | _ => none

/-- A write that was not accepted, or a read that found nothing. -/
def UseReply.IsRefusal : UseReply t → Prop
  | .act (.accepted b) => b = false
  | .act (.view v) => v.slot = .null ∧ v.hasValue = false ∧ v.value = none
  | .answer _ => True

/-- What uses of the handle at an index do to the column `c`: only the slot at the index changes, to
the last one written, and outside of the column nothing happens. -/
structure UsesAt (i : SlotIndex) (us : List (HandleUse t)) (c d : Column t.Value)
    (rs : List (UseReply t)) : Prop where
  length_eq : d.length = c.length
  slot_of_ne : ∀ n, i.position? ≠ some n → d.slot n = c.slot n
  slot_at : ∀ n < c.length, i.position? = some n →
    d.slot n = (us.reverse.findSome? HandleUse.written?).getD (c.slot n)
  outside : (∀ n, i.position? = some n → c.length ≤ n) → d = c ∧ ∀ r ∈ rs, r.IsRefusal

namespace UsesAt

variable {c d e : Column t.Value} {i : SlotIndex}

theorem nil (i : SlotIndex) (c : Column t.Value) : UsesAt i [] c c [] where
  length_eq := rfl
  slot_of_ne := fun _ _ => rfl
  slot_at := fun _ _ _ => rfl
  outside := fun _ => ⟨rfl, by simp⟩

theorem cons {u : HandleUse t} {us : List (HandleUse t)} {r : UseReply t} {rs : List (UseReply t)}
    (first : UsesAt i [u] c d [r]) (rest : UsesAt i us d e rs) : UsesAt i (u :: us) c e (r :: rs) where
  length_eq := rest.length_eq.trans first.length_eq
  slot_of_ne := fun n hn => (rest.slot_of_ne n hn).trans (first.slot_of_ne n hn)
  slot_at := by
    intro n hn hi
    have hlast : (u :: us).reverse.findSome? HandleUse.written? =
        (us.reverse.findSome? HandleUse.written?).or ([u].findSome? HandleUse.written?) := by
      rw [List.reverse_cons, List.findSome?_append]
    rw [rest.slot_at n (by rwa [first.length_eq]) hi, first.slot_at n hn hi, hlast]
    cases us.reverse.findSome? HandleUse.written? <;> rfl
  outside := by
    intro hout
    obtain ⟨rfl, hr⟩ := first.outside hout
    obtain ⟨rfl, hrs⟩ := rest.outside hout
    refine ⟨rfl, fun x hx => ?_⟩
    rcases List.mem_cons.mp hx with rfl | hx
    · exact hr x List.mem_cons_self
    · exact hrs x hx

/-- A use that writes nothing. -/
theorem of_read {u : HandleUse t} {r : UseReply t} (hu : u.written? = none)
    (hr : c.slotAt i = .null → r.IsRefusal) : UsesAt i [u] c c [r] where
  length_eq := rfl
  slot_of_ne := fun _ _ => rfl
  slot_at := by simp [hu]
  outside := by
    intro hout
    have hnull : c.slotAt i = .null := by
      unfold Column.slotAt
      cases hi : i.position? with
      | none => rfl
      | some n => exact Column.slot_of_length_le (hout n hi)
    exact ⟨rfl, by simpa using hr hnull⟩

theorem of_write {u : HandleUse t} {s : Nullable t.Value} (hu : u.written? = some s) :
    ∃ d b log, (c.write i.position? s : Outcome ε _) = ⟨.ok (d, b), log⟩ ∧
      UsesAt i [u] c d [.act (.accepted b)] := by
  rcases c.write_cases (ε := ε) i.position? s with ⟨n, hn, hi, hw⟩ | ⟨hi, hw⟩
  · refine ⟨_, _, _, hw, c.length_set_slots n s, ?_, ?_, ?_⟩
    · intro m hm
      rw [Column.slot_set_slots hn, if_neg]
      rintro rfl
      exact hm hi
    · intro m _ hm
      have hmn : m = n := Option.some.inj (hm.symm.trans hi)
      rw [Column.slot_set_slots hn, if_pos hmn]
      simp [hu]
    · intro hout
      exact absurd (hout n hi) (Nat.not_le.mpr hn)
  · refine ⟨_, _, _, hw, rfl, fun _ _ => rfl, ?_, ?_⟩
    · intro m hm him
      exact absurd (hi m him) (Nat.not_le.mpr hm)
    · intro _
      exact ⟨rfl, by simp [UseReply.IsRefusal]⟩

end UsesAt

theorem answered_eq (x : Option (Outcome Fault (Answer t))) :
    ∃ y log, (answered x : Outcome ε _) = ⟨.ok (.answer y), log⟩ := by
  cases x with
  | none => exact ⟨_, _, rfl⟩
  | some x => exact ⟨_, _, rfl⟩

theorem useAt_usesAt (c : Column t.Value) (i : SlotIndex) (u : HandleUse t) :
    ∃ d r log, (c.useAt i u : Outcome ε _) = ⟨.ok (d, r), log⟩ ∧ UsesAt i [u] c d [r] := by
  rcases u with (s | _ | _) | op
  · obtain ⟨d, b, log, hw, hd⟩ := UsesAt.of_write (ε := ε) (c := c) (i := i) (u := .act (.assign s)) rfl
    have hset : (c.set i s : Outcome ε _) = ⟨.ok (d, b), log⟩ := hw
    refine ⟨d, _, log, ?_, hd⟩
    simp only [Column.useAt, Column.actAt, hset, Outcome.map_mk_ok]
  · obtain ⟨d, b, log, hw, hd⟩ := UsesAt.of_write (ε := ε) (c := c) (i := i) (u := .act .assignNull) rfl
    have hreset : (c.reset i : Outcome ε _) = ⟨.ok (d, b), log⟩ := hw
    refine ⟨d, _, log, ?_, hd⟩
    simp only [Column.useAt, Column.actAt, hreset, Outcome.map_mk_ok]
  · refine ⟨c, _, _, rfl, UsesAt.of_read rfl fun hnull => ?_⟩
    simp [UseReply.IsRefusal, Column.viewAt, hnull, Nullable.hasValue, Nullable.toOption]
  · obtain ⟨y, log, hy⟩ := answered_eq (ε := ε)
      (op.operation.runWith? fun _ => .nullable (c.slotAt i))
    refine ⟨c, .answer y, log, ?_, UsesAt.of_read rfl fun _ => trivial⟩
    simp only [Column.useAt, hy, Outcome.map_mk_ok]

theorem useAllAt_usesAt (c : Column t.Value) (i : SlotIndex) (us : List (HandleUse t)) :
    ∃ d rs log, (c.useAllAt i us : Outcome ε _) = ⟨.ok (d, rs), log⟩ ∧ UsesAt i us c d rs := by
  induction us generalizing c with
  | nil => exact ⟨c, [], [], rfl, .nil i c⟩
  | cons u us ih =>
    obtain ⟨d, r, log, hu, first⟩ := useAt_usesAt (ε := ε) c i u
    obtain ⟨e, rs, later, hus, rest⟩ := ih d
    refine ⟨e, r :: rs, log ++ later, ?_, first.cons rest⟩
    simp only [Column.useAllAt, hu, bind, Outcome.andThen, hus, pure, Outcome.ok, List.append_nil]

/-- Every run on a handle is the run on its column with the index: the replies, the records and the
column are the same. The length stays, only the slot at the index changes, and it shows the last write;
outside of the column every write is refused, every read finds nothing and the column stays as it is.
So it is after each part of a run, as a longer run goes on from there. -/
theorem handle_run_simulates (c : Column t.Value) (i : SlotIndex) (us : List (HandleUse t)) :
    ∃ d rs log,
      ((c.handle i).useAll us : Outcome ε _) = ⟨.ok (d.handle i, rs), log⟩ ∧
      (c.useAllAt i us : Outcome ε _) = ⟨.ok (d, rs), log⟩ ∧
      UsesAt i us c d rs ∧
      (∀ later, ((c.handle i).useAll (us ++ later) : Outcome ε _) =
        (c.handle i).useAll us >>= fun (h, rs) =>
          (fun (k, more) => (k, rs ++ more)) <$> h.useAll later) ∧
      ∀ as, us = as.map .act → ∃ replies, rs = replies.map .act ∧
        ((c.handle i).actAll t.display as : Outcome ε _) = ⟨.ok (d.handle i, replies), log⟩ := by
  obtain ⟨d, rs, log, hrun, huses⟩ := useAllAt_usesAt (ε := ε) c i us
  have hhandle : ((c.handle i).useAll us : Outcome ε _) = ⟨.ok (d.handle i, rs), log⟩ := by
    rw [useAll_handle, hrun, Outcome.map_mk_ok]
  refine ⟨d, rs, log, hhandle, hrun, huses, useAll_append (c.handle i) us, ?_⟩
  rintro as rfl
  rw [useAll_map_act] at hhandle
  obtain ⟨⟨h, replies⟩, hact, heq⟩ := Outcome.exists_of_map_eq hhandle
  cases heq
  exact ⟨replies, rfl, hact⟩

end ColumnAlgebra
