import JobRunner.Tracker

/-!
# `wait` and its child process

`JobTracker::wait` on Unix, next to the process it tracks. The process may end by itself at any
moment. `wait` learns that it has ended only when one of its awaits has waited for it, that of
`child.wait()` or that of `child.kill()`, which sends a SIGKILL and then waits as well. A kill
request comes with a oneshot channel of its own.
-/

namespace JobRunner

/-- How a process has ended: by itself, or by the SIGKILL of `child.kill()`. -/
inductive Ended where
  | byItself
  | bySignal
  deriving DecidableEq, Repr

/-- The process of a `TokioChild`, and whether it has been waited for. -/
inductive TokioChild where
  | running
  | ended (how : Ended) (waited : Bool)
  deriving DecidableEq, Repr

namespace TokioChild

def endedByItself : TokioChild → Bool
  | .ended .byItself _ => true
  | _ => false

/-- The child after `wait`, if it may return this. -/
def wait (c : TokioChild) : Except IoError ProcStatus → Option TokioChild
  | .ok _ =>
    match c with
    | .running => none
    | .ended how _ => some (.ended how true)
  | .error _ => some c

/-- The child after a `kill` that found it as `called`, if it may return this. A process that has
ended still takes the signal until it has been waited for, and fails the call after that. A running
one may refuse the signal. -/
def kill (called c : TokioChild) : Except IoError Unit → Option TokioChild
  | .ok () =>
    match called, c with
    | .ended _ true, _ => none
    | _, .running => none
    | _, .ended how _ => some (.ended how true)
  | .error _ =>
    match called with
    | .ended _ false => none
    | _ => some c

end TokioChild

/-- `called` is the child at the last call of `child.kill()`, and `txs` are the oneshot channels of
the requests taken so far. -/
structure Supervised where
  trk : Tracker
  child : TokioChild
  called : TokioChild
  txs : List Nat

namespace Supervised

def start (job : Job) : Supervised :=
  { trk := Tracker.start job, child := .running, called := .running, txs := [] }

/-- A step of `wait`, or the end of the process, by itself or by the signal of `child.kill()`. -/
inductive Act where
  | wait (ev : Tracker.Ev)
  | ends
  | sigkill

/-- A step of `wait`. The kill branch calls `child.kill()` as soon as it has a request. -/
def stepWait (s : Supervised) (ev : Tracker.Ev) : Option Supervised :=
  match s.trk.step ev with
  | none => none
  | some trk =>
    match ev with
    | .killReq (some req) =>
      if req.tx ∈ s.txs then none
      else some { s with trk, called := s.child, txs := req.tx :: s.txs }
    | .killRes _ res _ => (s.called.kill s.child res).map fun child => { s with trk, child }
    | .exit status _ => (s.child.wait status).map fun child => { s with trk, child }
    | _ => some { s with trk }

def step (s : Supervised) : Act → Option Supervised
  | .wait ev => s.stepWait ev
  | .ends =>
    match s.child with
    | .running => some { s with child := .ended .byItself false }
    | _ => none
  | .sigkill =>
    -- perhaps after a call that has failed in its wait
    match s.txs, s.child with
    | _ :: _, .running => some { s with child := .ended .bySignal false }
    | _, _ => none

end Supervised

end JobRunner
