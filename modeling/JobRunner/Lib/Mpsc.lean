import Mathlib.Data.List.Basic

/-!
# Bounded multi-producer single-consumer channels

A channel is a FIFO queue with a capacity, a count of the live sender handles and a receiver that
is either open or dropped. `send` and `recv` are polls: `none` is "pending", so an operation that
is cancelled while pending has changed nothing. `recv` answers `none` (end of channel) only once
every sender handle is gone and the queue is empty; `send` fails only once the receiver is gone.

There is no queue of the senders that wait: whichever is polled first takes a place that has become
free. A fair channel, which hands it to the one that has waited longest, has some of these runs.
-/

namespace Mpsc

universe u

/-- A bounded channel. -/
structure Chan (α : Type u) where
  cap : Nat
  queue : List α
  senders : Nat
  rxOpen : Bool

/-- The outcome of a send that does not wait. -/
inductive SendRes (α : Type u) where
  | closed
  | full
  | sent (c : Chan α)

namespace Chan

variable {α : Type u}

/-- A fresh channel with one sender handle. -/
def new (cap : Nat) : Chan α := { cap, queue := [], senders := 1, rxOpen := true }

/-- The queue after one more value. -/
def push (c : Chan α) (a : α) : Chan α := { c with queue := c.queue ++ [a] }

/-- A send that fails at once on a full channel. -/
def trySend (c : Chan α) (a : α) : SendRes α :=
  if c.rxOpen = false then .closed
  else if c.queue.length < c.cap then .sent (c.push a)
  else .full

/-- One poll of an awaited send: pending while the channel is full; otherwise whether the value
was accepted, and the channel afterwards. -/
def send (c : Chan α) (a : α) : Option (Bool × Chan α) :=
  match c.trySend a with
  | .closed => some (false, c)
  | .full => none
  | .sent c' => some (true, c')

/-- One poll of a receive: pending while the channel is empty and a sender is left. -/
def recv (c : Chan α) : Option (Option α × Chan α) :=
  match c.queue with
  | a :: q => some (some a, { c with queue := q })
  | [] => if c.senders = 0 then some (none, c) else none

def cloneTx (c : Chan α) : Chan α := { c with senders := c.senders + 1 }

def dropTx (c : Chan α) : Chan α := { c with senders := c.senders - 1 }

/-- Dropping the receiver also drops the values still queued. -/
def dropRx (c : Chan α) : Chan α := { c with queue := [], rxOpen := false }

section Simp

variable (c : Chan α) (a : α)

@[simp] theorem new_cap (n : Nat) : (new n : Chan α).cap = n := rfl
@[simp] theorem new_queue (n : Nat) : (new n : Chan α).queue = [] := rfl
@[simp] theorem new_senders (n : Nat) : (new n : Chan α).senders = 1 := rfl
@[simp] theorem new_rxOpen (n : Nat) : (new n : Chan α).rxOpen = true := rfl
@[simp] theorem push_cap : (c.push a).cap = c.cap := rfl
@[simp] theorem push_queue : (c.push a).queue = c.queue ++ [a] := rfl
@[simp] theorem push_senders : (c.push a).senders = c.senders := rfl
@[simp] theorem push_rxOpen : (c.push a).rxOpen = c.rxOpen := rfl
@[simp] theorem cloneTx_cap : c.cloneTx.cap = c.cap := rfl
@[simp] theorem cloneTx_queue : c.cloneTx.queue = c.queue := rfl
@[simp] theorem cloneTx_senders : c.cloneTx.senders = c.senders + 1 := rfl
@[simp] theorem cloneTx_rxOpen : c.cloneTx.rxOpen = c.rxOpen := rfl
@[simp] theorem dropTx_cap : c.dropTx.cap = c.cap := rfl
@[simp] theorem dropTx_queue : c.dropTx.queue = c.queue := rfl
@[simp] theorem dropTx_senders : c.dropTx.senders = c.senders - 1 := rfl
@[simp] theorem dropTx_rxOpen : c.dropTx.rxOpen = c.rxOpen := rfl
@[simp] theorem dropRx_cap : c.dropRx.cap = c.cap := rfl
@[simp] theorem dropRx_queue : c.dropRx.queue = [] := rfl
@[simp] theorem dropRx_senders : c.dropRx.senders = c.senders := rfl
@[simp] theorem dropRx_rxOpen : c.dropRx.rxOpen = false := rfl

end Simp

/-! ## What a poll can answer -/

theorem send_eq_some_iff {c c' : Chan α} {a : α} {ok : Bool} :
    c.send a = some (ok, c') ↔
      (ok = true ∧ c.rxOpen = true ∧ c.queue.length < c.cap ∧ c' = c.push a) ∨
      (ok = false ∧ c.rxOpen = false ∧ c' = c) := by
  unfold send trySend
  cases c.rxOpen <;> by_cases h : c.queue.length < c.cap <;> simp [h, eq_comm]

/-- A send does not wait. -/
def Ready (c : Chan α) : Prop := c.rxOpen = false ∨ c.queue.length < c.cap

theorem send_isSome {c : Chan α} {a : α} : (c.send a).isSome = true ↔ c.Ready := by
  unfold send trySend Ready
  cases c.rxOpen <;> by_cases h : c.queue.length < c.cap <;> simp [h]

theorem recv_eq_some_iff {c c' : Chan α} {o : Option α} :
    c.recv = some (o, c') ↔
      (∃ a q, c.queue = a :: q ∧ o = some a ∧ c' = { c with queue := q }) ∨
      (c.queue = [] ∧ c.senders = 0 ∧ o = none ∧ c' = c) := by
  unfold recv
  cases hq : c.queue with
  | nil => by_cases h : c.senders = 0 <;> simp [h, eq_comm]
  | cons a q => simp [eq_comm]

end Chan

end Mpsc
