import JobRunner.Types
import JobRunner.Lib.Waker
import JobRunner.Lib.Lts

/-!
# `KillChild`

The future that kills the process of a Windows child, and the thread its first poll starts. The
two meet at a `sync_channel(0)`: `send` waits until the receiver takes the value, and `try_recv`
takes it only from a thread that is waiting in `send`. A poll is two steps, so that the thread can
run between the registration of the waker and the rest of the poll.
-/

namespace JobRunner.Win

/-- The thread that calls `TerminateProcess`: about to, then about to call `tx.send` or waiting in
it, then about to call `waker.wake`. At its end `tx` is dropped. -/
inductive KillThread where
  | terminate
  | send (res : Except IoError Unit)
  | sending (res : Except IoError Unit)
  | wake
  | done

/-- The task that awaits the future: `idle` while the future is pending or not polled yet, `polling`
in a poll that has registered the waker. -/
inductive KillTask where
  | idle
  | polling
  | done (res : Except IoError Unit)

/-- `rx` tells whether the field `rx` is `Some`. -/
structure KillChild where
  rx : Bool
  thread : Option KillThread
  waker : AtomicWaker
  task : KillTask
  polled : Bool

namespace KillChild

/-- `KillChild::new`. -/
def new : KillChild :=
  { rx := false, thread := none, waker := AtomicWaker.new, task := .idle, polled := false }

/-- A poll starts and registers the waker, and the rest of it follows. Something else wakes the
task. The other steps are those of the thread. -/
inductive Act where
  | poll
  | finish
  | foreign
  | terminate
  | send
  | wake
  deriving DecidableEq

/-- A step, where `TerminateProcess` returns `res`. Whether the task is also woken from elsewhere
is up to `foreign`. -/
def step (foreign : Bool) (res : Except IoError Unit) (s : KillChild) : Act → Option KillChild
  | .poll =>
    match s.task with
    | .idle =>
      -- the first poll, or one after a wake-up
      if s.polled = false ∨ s.waker.woken = true then
        some { s with task := .polling, polled := true, waker := s.waker.poll.register }
      else none
    | _ => none
  | .finish =>
    match s.task with
    | .polling =>
      if s.rx = false then some { s with rx := true, thread := some .terminate, task := .idle }
      else
        match s.thread with
        | some (.sending res) => some { s with task := .done res, thread := some .wake }
        | some .done => some { s with task := .done (.ok ()) }
        | _ => some { s with task := .idle }
    | _ => none
  | .foreign => if foreign then some { s with waker := s.waker.wakeTask } else none
  | .terminate =>
    match s.thread with
    | some .terminate => some { s with thread := some (.send res) }
    | _ => none
  | .send =>
    match s.thread with
    | some (.send res) => some { s with thread := some (.sending res) }
    | _ => none
  | .wake =>
    match s.thread with
    | some .wake => some { s with thread := some .done, waker := s.waker.wake }
    | _ => none

/-- The future has not completed, and neither the executor nor the thread can do anything. -/
def Stuck (foreign : Bool) (res : Except IoError Unit) (s : KillChild) : Prop :=
  (∀ r, s.task ≠ .done r) ∧ ∀ a, s.step foreign res a = none

end KillChild

end JobRunner.Win
