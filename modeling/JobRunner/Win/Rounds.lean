import JobRunner.Tracker
import JobRunner.Win.Wait

/-!
# The rounds of `JobTracker::wait` on Windows

The loop of `wait` with the `WaitChild` of the round it is in, as `child.wait()` makes one for each
`select!`. What the exit branch is given is what the future has returned. Another branch drops the
future, which may have been polled in this round or not. The threads are left behind.
-/

namespace JobRunner.Win

/-- What `child.wait()` has returned to `select!`, in terms of the process. -/
def WaitTask.returns : WaitTask → Except IoError ProcStatus → Bool
  | .done (.ok status), .ok proc => status = .ofProc proc
  | .done (.error err), .error err' => err = err'
  | _, _ => false

structure WaitLoop where
  trk : Tracker
  wait : WaitChild

namespace WaitLoop

def start (job : Job) : WaitLoop := { trk := Tracker.start job, wait := WaitChild.start }

/-- A step of the future, its threads or its process, or one of `wait`. For a branch of `select!`,
`polled` tells whether the task has been polled once more before it is taken. -/
inductive Act where
  | wait (a : WaitChild.Act)
  | trk (ev : Tracker.Ev) (polled : Bool)

/-- A branch but that of the exit is taken. -/
def leave (s : WaitLoop) (polled : Bool) : Option WaitChild :=
  if s.trk.childOk then
    match s.wait.task with
    | .away => some s.wait
    | _ => s.wait.step (.elsewhere polled)
  else some s.wait

/-- What becomes of the future. -/
def taken (s : WaitLoop) (polled : Bool) : Tracker.Ev → Option WaitChild
  | .output _ _ => s.leave polled
  | .killReq _ => s.leave polled
  | .exit status _ => if s.wait.task.returns status then some s.wait else none
  | _ => some s.wait

def step (s : WaitLoop) : Act → Option WaitLoop
  | .wait a =>
    match a with
    | .elsewhere _ => none
    | .poll =>
      if s.trk.pc = .select ∧ s.trk.childOk then
        (s.wait.step .poll).map fun wait => { s with wait }
      else none
    | a => (s.wait.step a).map fun wait => { s with wait }
  | .trk ev polled => do
    let trk ← s.trk.step ev
    let wait ← s.taken polled ev
    some { trk, wait }

end WaitLoop

end JobRunner.Win
