import ColumnAlgebra.Handle

/-!
# Runs on one handle

What a handle is asked to do, one action after the other on the same handle. A read shows the slot as
the last write left it, also through a second handle on the same slot that may only read.
-/

namespace ColumnAlgebra
set_option autoImplicit false

variable {α ε : Type}

structure HandleView (α : Type) where
  position : Option Nat
  slot : Nullable α
  hasValue : Bool
  value : Option α
  tryValue : Except ColumnError α
  display : String

def Handle.view (text : α → String) (h : Handle α) : HandleView α :=
  { position := h.position
    slot := h.get
    hasValue := h.hasValue
    value := h.value
    tryValue := h.tryValue
    display := h.display text }

inductive HandleAction (α : Type) where
  | assign (s : Nullable α)
  | assignNull
  | read

inductive ActionReply (α : Type) where
  | accepted (b : Bool)
  | view (v : HandleView α)

namespace Handle

def act (text : α → String) (h : Handle α) :
    HandleAction α → Outcome ε (Handle α × ActionReply α)
  | .assign s => (fun (h, b) => (h, .accepted b)) <$> h.assign s
  | .assignNull => (fun (h, b) => (h, .accepted b)) <$> h.assignNull
  | .read => pure (h, .view (h.view text))

def actAll (text : α → String) (h : Handle α) :
    List (HandleAction α) → Outcome ε (Handle α × List (ActionReply α))
  | [] => pure (h, [])
  | a :: rest => do
    let (h, reply) ← h.act text a
    let (h, replies) ← h.actAll text rest
    pure (h, reply :: replies)

end Handle
end ColumnAlgebra
