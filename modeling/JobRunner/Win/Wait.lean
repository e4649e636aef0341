import JobRunner.Types
import JobRunner.Lib.Lts

/-!
# `WaitChild`

The future that waits for the process of a Windows child, as `JobTracker::wait` awaits it in its
`select!`: a new one in each round of the loop, dropped when another branch is taken. A poll asks
whether the process has exited, and if not it starts a thread that waits for the process and wakes
the task. The threads are detached, and outlive the future.
-/

namespace JobRunner

/-- `ExitStatus::from_raw`, as an `ExitStatus`: on Windows there always is a code. -/
def ExitStatus.ofRaw (code : UInt32) : ExitStatus := { code := some code.toInt32 }

/-- To `JobTracker::wait` it is that of a process that has called exit. -/
theorem ExitStatus.ofRaw_eq (code : UInt32) :
    ExitStatus.ofRaw code = .ofProc (.exited code.toInt32) := rfl

namespace Win

/-- What `WaitForSingleObject` returns. -/
inductive WaitEvent where
  | object0
  | timeout
  | failed
  deriving DecidableEq, Repr

/-- Whether a call may return this, with the exit code of the process if it has exited. -/
def WaitEvent.possible (exited : Option UInt32) (infinite : Bool) : WaitEvent → Bool
  | .object0 => exited.isSome
  | .timeout => exited.isNone && !infinite
  | .failed => true

/-- A thread in `wait_wake`: in `WaitForSingleObject`, with `INFINITE`, and then about to wake the
task. -/
inductive WaitThread where
  | waiting
  | wake
  | done
  deriving DecidableEq, Repr

/-- The task and its future: it has none; it is in a poll, about to call `WaitForSingleObject` with
0, `GetExitCodeProcess` or `thread::spawn`; or the poll has returned. -/
inductive WaitTask where
  | away
  | polling
  | exited
  | running
  | pending
  | done (res : Except IoError ExitStatus)

/-- `exited` is the exit code, once the process has exited, and `woken` tells whether the task has
been woken since it was last polled. -/
structure WaitChild where
  exited : Option UInt32
  task : WaitTask
  woken : Bool
  threads : List WaitThread

namespace WaitChild

def start : WaitChild := { exited := none, task := .away, woken := false, threads := [] }

/-- The process exits. A poll of the future starts, and its calls return. Another branch is taken,
in a poll of the task of its own or in the one that has just polled the future. Something else
wakes the task. The call of a thread returns, and the thread wakes the task. -/
inductive Act where
  | exit (code : UInt32)
  | poll
  | waitNow (ev : WaitEvent)
  | exitCode (res : Except IoError Unit)
  | spawn
  | elsewhere (polled : Bool)
  | foreign
  | waited (i : Nat) (ev : WaitEvent)
  | wake (i : Nat)

def step (s : WaitChild) : Act → Option WaitChild
  | .exit code =>
    match s.exited with
    | none => some { s with exited := some code }
    | some _ => none
  | .poll =>
    match s.task with
    | .away => some { s with task := .polling }
    | .pending => if s.woken then some { s with task := .polling, woken := false } else none
    | _ => none
  | .waitNow ev =>
    match s.task with
    | .polling =>
      if ev.possible s.exited false then
        -- a failed call is taken for a process that is running
        some { s with task := if ev = .object0 then .exited else .running }
      else none
    | _ => none
  | .exitCode res =>
    match s.task, s.exited with
    | .exited, some code => some { s with task := .done (res.map fun _ => .ofRaw code) }
    | _, _ => none
  | .spawn =>
    match s.task with
    | .running => some { s with task := .pending, threads := s.threads ++ [.waiting] }
    | _ => none
  | .elsewhere polled =>
    match s.task with
    | .pending =>
      if polled then
        if s.woken then some { s with task := .away, woken := false } else none
      else some { s with task := .away }
    | _ => none
  | .foreign => some { s with woken := true }
  | .waited i ev =>
    match s.threads[i]? with
    | some .waiting =>
      -- whatever it returns, the thread wakes the task
      if ev.possible s.exited true then some { s with threads := s.threads.set i .wake } else none
    | _ => none
  | .wake i =>
    match s.threads[i]? with
    | some .wake => some { s with threads := s.threads.set i .done, woken := true }
    | _ => none

end WaitChild

end Win

end JobRunner
