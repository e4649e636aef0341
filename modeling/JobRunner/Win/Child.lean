import JobRunner.Win.Spawn

/-!
# A `win::Child` and its handles

The life of one child: the `Child::spawn` call, the `stdout` and `stderr` handles given to their
reading threads, the `wait` and `kill` futures, one at a time since each borrows the child, the
threads these start, and the drop of the `Child`. A future and its threads hold clones of the
process handle. The threads are detached: nothing waits for them.
-/

namespace JobRunner.Win

/-- A `wait` or a `kill` future. -/
inductive Future where
  | wait (handle : Handle)
  | kill (handle : Handle) (started : Bool)

/-- The call a thread is for. The wait is one with `INFINITE`. -/
inductive Call where
  | waitForSingleObject
  | terminateProcess
  deriving DecidableEq

inductive CallPc where
  | started
  | inCall
  | done
  deriving DecidableEq

/-- A thread that a future has started. -/
structure CallThread where
  call : Call
  handle : Handle
  pc : CallPc

/-- One child. `readers` are the handles of the running `read_handle`s, and `exited` tells whether
the process has ended. -/
structure ChildRun where
  spawn : Spawn
  child : Option Child
  readers : PipeKind → Option Handle
  future : Option Future
  threads : Nat → Option CallThread
  exited : Bool

namespace ChildRun

def start (spec : JobSpec) : ChildRun :=
  { spawn := Spawn.start spec, child := none, readers := fun _ => none, future := none
    threads := fun _ => none, exited := false }

/-- `stdout` or `stderr` is taken, and its `read_handle` returns. A future is made, polled and
dropped; a poll may start a thread `i`, and so may one whose `WaitForSingleObject` fails. A thread
enters its call, and when the call returns the thread ends. -/
inductive Act where
  | spawn (a : Spawn.Act)
  | take (k : PipeKind)
  | readerEnds (k : PipeKind)
  | wait
  | kill
  | poll (i : Nat)
  | pollFailed (i : Nat)
  | dropFuture
  | call (i : Nat)
  | return_ (i : Nat)
  | exit
  | dropChild

/-- The `Child` that a call of `spawn` has just returned. -/
def returnedChild (sp : Spawn) : Option Child :=
  match sp.pc with
  | .returned (.ok c) => some c
  | _ => none

def output (c : Child) : PipeKind → Option Handle
  | .stdout => c.stdout
  | .stderr => c.stderr

def takeOutput (c : Child) : PipeKind → Child
  | .stdout => { c with stdout := none }
  | .stderr => { c with stderr := none }

def setOs (s : ChildRun) (os : OsHandles) : ChildRun := { s with spawn := { s.spawn with os } }

/-- The drop of some handles, in order. -/
def closeAll (hs : List Handle) (os : OsHandles) : OsHandles :=
  hs.foldl (fun os h => h.close os) os

/-- The handles of a `Child`, in the order they are dropped. -/
def handles (c : Child) : List Handle :=
  c.process :: c.thread :: (c.stdout.toList ++ c.stderr.toList)

def startThread (s : ChildRun) (i : Nat) (call : Call) (handle : Handle) : ChildRun :=
  { s with threads := Function.update s.threads i (some { call, handle, pc := .started }) }

def setThread (s : ChildRun) (i : Nat) (t : CallThread) : ChildRun :=
  { s with threads := Function.update s.threads i (some t) }

def step (s : ChildRun) : Act → Option ChildRun
  | .spawn a =>
    match s.spawn.step a with
    | none => none
    | some sp =>
      match returnedChild sp with
      | some c => some { s with spawn := sp, child := some c }
      | none => some { s with spawn := sp }
  | .take k =>
    match s.child, s.future with
    | some c, none =>
      match output c k with
      | none => none
      | some h =>
        some { s with
          child := some (takeOutput c k), readers := Function.update s.readers k (some h) }
    | _, _ => none
  | .readerEnds k =>
    match s.readers k with
    | none => none
    | some h =>
      some ({ s with readers := Function.update s.readers k none }.setOs (h.close s.spawn.os))
  | .wait =>
    match s.child, s.future with
    | some c, none => some { s with future := some (.wait c.process.clone) }
    | _, _ => none
  | .kill =>
    match s.child, s.future with
    | some c, none => some { s with future := some (.kill c.process.clone false) }
    | _, _ => none
  | .poll i =>
    match s.future, s.threads i with
    | some (.wait h), none =>
      -- with the process gone the poll is ready, and starts no thread
      if s.exited then some s else some (s.startThread i .waitForSingleObject h.clone)
    | some (.kill h false), none =>
      some ({ s with future := some (.kill h true) }.startThread i .terminateProcess h.clone)
    | some (.kill _ true), _ => some s
    | _, _ => none
  | .pollFailed i =>
    match s.future, s.threads i with
    -- a failed call is taken for a process that is running
    | some (.wait h), none => some (s.startThread i .waitForSingleObject h.clone)
    | _, _ => none
  | .dropFuture =>
    match s.future with
    | some (.wait h) => some ({ s with future := none }.setOs (h.close s.spawn.os))
    | some (.kill h _) => some ({ s with future := none }.setOs (h.close s.spawn.os))
    | none => none
  | .call i =>
    match s.threads i with
    | some t =>
      if t.pc = .started then some (s.setThread i { t with pc := .inCall }) else none
    | none => none
  | .return_ i =>
    match s.threads i with
    | some t =>
      -- an infinite wait too, before the process has ended, if it fails
      if t.pc = .inCall then
        some ((s.setThread i { t with pc := .done }).setOs (t.handle.close s.spawn.os))
      else none
    | none => none
  | .exit => some { s with exited := true }
  | .dropChild =>
    match s.child, s.future with
    | some c, none =>
      some ({ s with child := none }.setOs (closeAll (handles c) s.spawn.os))
    | _, _ => none

/-- What a handle refers to has been closed. -/
def Closed (s : ChildRun) (h : Handle) : Prop :=
  ∃ name, h.inner = .created name ∧ 0 < (s.spawn.os name).closes

/-- A thread is in its call, or a future's next poll makes one, on a handle that has been closed. -/
def Misused (s : ChildRun) : Prop :=
  (∃ i t, s.threads i = some t ∧ t.pc = .inCall ∧ s.Closed t.handle) ∨
    ∃ h, s.future = some (.wait h) ∧ s.Closed h

/-- Everything that owned a handle is gone. -/
def Over (s : ChildRun) : Prop :=
  (∃ res, s.spawn.pc = .returned res) ∧ s.child = none ∧ ∀ k, s.readers k = none

end ChildRun

end JobRunner.Win
