import JobRunner.Logs

/-!
# `MemoryCoordinator`

The coordinator, the gRPC calls made on it and the jobs it has started, as one system. A label is
a step of a call, or of one of the tasks of a job and the clients of its log streams.

The lookup in `get_tracker` and the read of the job record after it are one step: an entry of
`Memory.jobs` is never removed. Job ids come with the `spawn` that generates them and are unique.
-/

namespace JobRunner

/-! ## Calls -/

/-- The operations on a job. -/
inductive Op where
  | logs
  | ps
  | kill
  deriving DecidableEq, Repr

/-- What a call returns on success. The items of a log stream are sent by its `Forwarder`. -/
inductive Ret where
  | job (job : Job)
  | stream
  deriving DecidableEq, Repr

/-- Where a call is: in `self.inner.lock().await` of `spawn`, with the job tracked; in `stream_logs`
or `kill`, past the owner check; rejected by `validate`; answered; or dropped, with the connection
of its client. -/
inductive CallPc where
  | spawning (job : Job)
  | waiting (op : Op) (jobId : JobId)
  | rejected (st : Status)
  | done (res : Except CoordError Ret)
  | cancelled
  deriving DecidableEq, Repr

/-- A gRPC call. `user` is that of its `Ctx`. -/
structure Call where
  user : User
  pc : CallPc
  deriving DecidableEq, Repr

/-- What the client of a call gets. A handler that panics answers nothing. -/
inductive Response where
  | status (st : Status)
  | job (job : Pb.Job)
  | stream
  | panicked
  deriving DecidableEq, Repr

/-- The handlers of `GrpcStoreImpl` after the call of the coordinator. -/
def Call.response (call : Call) : Option Response :=
  match call.pc with
  | .rejected st => some (.status st)
  | .done (.error err) => some (.status (.ofError err))
  | .done (.ok (.job job)) => some ((job.toPb.map Response.job).getD .panicked)
  | .done (.ok .stream) => some .stream
  | _ => none

/-! ## The state -/

/-- A job that has been started, with the two owners its `JobTracker` may have next to its own
tasks: `Memory.jobs` and the `spawn` call that started it. -/
structure Tracked where
  served : Served
  registered : Bool
  held : Bool

namespace Tracked

/-- `JobTracker::track`. -/
def start (job : Job) : Tracked :=
  { served := Served.start job, registered := false, held := true }

/-- `JobTracker::job`. -/
def job (t : Tracked) : Job := t.served.pl.trk.job

/-- The steps of a job that no step of a call stands for. The broadcaster's handle goes with
`JobTrackerInner`, so with its last owner. -/
def internal (t : Tracked) : Served.Act → Bool
  | .openLogs _ => false
  | .abandon _ => false
  | .pipe (.kill _ (.call _)) => false
  | .pipe (.kill _ .drop) => false
  | .pipe (.bcast (.subscribe _)) => false
  | .pipe (.bcast (.giveUp _)) => false
  | .pipe (.bcast .dropHandle) =>
    !t.registered && !t.held && t.served.pl.trk.pc = .returned
  | _ => true

/-- A step of the job's own parts. -/
def serve (t : Tracked) (a : Served.Act) : Option Tracked :=
  (t.served.step a).map fun served => { t with served }

/-! Each of the next functions is a step of call `c`, as far as the job it is about goes: what
becomes of the job and of the call. -/

/-- `logs`, `ps` and `kill` between `get_tracker` and the next await. The subscription and the
kill request have the number of the call. -/
def enter (t : Tracked) (c : Nat) (user : User) (j : JobId) : Op → Option (Tracked × CallPc)
  | .ps => some (t, .done (.ok (.job t.job)))
  | .logs => (t.serve (.pipe (.bcast (.subscribe c)))).map (·, .waiting .logs j)
  | .kill => (t.serve (.pipe (.kill c (.call user)))).map (·, .waiting .kill j)

/-- `MemoryCoordinator::kill` after `JobTracker::kill`. -/
def killRes (j : JobId) : Except KillError Job → Except CoordError Ret
  | .ok job => .ok (.job job)
  | .error .reqSendFailed => .error (.jobNotRunning j)
  | .error err => .error (.kill err)

/-- The end of `logs` and of `kill`. -/
def reply (t : Tracked) (c : Nat) (j : JobId) : Op → Option (Tracked × CallPc)
  | .ps => none
  | .kill =>
    match t.served.pl.kills c with
    | .done res => some (t, .done (killRes j res))
    | _ => none
  | .logs =>
    match t.served.pl.bc.subs c with
    | .live _ => (t.serve (.openLogs c)).map (·, .done (.ok .stream))
    | .gone =>
      some (t, .done (.error (.logsNotAvailable .broadcasterUnavailableForLogs)))
    | .queued true =>
      -- the request was dropped with the broadcaster
      if t.served.pl.bc.reqCh.rxOpen then none
      else (t.serve (.pipe (.bcast (.giveUp c)))).map
        (·, .done (.error (.logsNotAvailable .getLogStream)))
    | _ => none

/-- The timeout of `FrameBroadcaster::stream`. -/
def timeout (t : Tracked) (c : Nat) : Op → Option (Tracked × CallPc)
  | .logs =>
    match t.served.pl.bc.subs c with
    | .queued true =>
      (t.serve (.pipe (.bcast (.giveUp c)))).map
        (·, .done (.error (.logsNotAvailable .timeoutWaitingForLogRx)))
    | _ => none
  | _ => none

/-- A pending `logs` or `kill` is dropped, with what it holds of the job. -/
def cancel (t : Tracked) (c : Nat) : Op → Option (Tracked × CallPc)
  | .ps => none
  | .kill =>
    match t.served.pl.kills c with
    | .done _ => some (t, .cancelled)
    | _ => (t.serve (.pipe (.kill c .drop))).map (·, .cancelled)
  | .logs =>
    match t.served.pl.bc.subs c with
    | .live _ => (t.serve (.abandon c)).map (·, .cancelled)
    | .gone => some (t, .cancelled)
    | _ => (t.serve (.pipe (.bcast (.giveUp c)))).map (·, .cancelled)

/-- `spawn` under the lock of `Memory`. The panic after `jobs.insert` has no step, and is never
due: `Coord.insert_enabled`. -/
def insert (t : Tracked) (job : Job) : Option (Tracked × CallPc) :=
  if t.registered then none
  else some ({ t with registered := true, held := false }, .done (.ok (.job job)))

/-- A pending `spawn` is dropped. -/
def release (t : Tracked) : Option (Tracked × CallPc) := some ({ t with held := false }, .cancelled)

end Tracked

structure Coord where
  tracked : JobId → Option Tracked
  calls : Nat → Option Call

namespace Coord

/-- `MemoryCoordinator::default`. -/
def init : Coord := { tracked := fun _ => none, calls := fun _ => none }

def setTracked (s : Coord) (j : JobId) (t : Tracked) : Coord :=
  { s with tracked := Function.update s.tracked j (some t) }

def setCall (s : Coord) (c : Nat) (call : Call) : Coord :=
  { s with calls := Function.update s.calls c (some call) }

/-! ## Steps -/

/-- What the operating system makes of a `spawn`, with the id and the time of the new job. -/
structure Spawned where
  jobId : JobId
  pid : Pid
  now : DateTime
  deriving DecidableEq, Repr

/-- The record `spawn` makes of the new child. -/
def Spawned.job (child : Spawned) (user : User) : Job :=
  Job.started child.jobId user child.pid child.now

inductive Act where
  | spawn (c : Nat) (user : User) (name : String) (res : Except SpawnError Spawned)
  | insert (c : Nat)
  | call (c : Nat) (user : User) (op : Op) (j : JobId)
  | reply (c : Nat)
  | timeout (c : Nat)
  | cancel (c : Nat)
  | task (j : JobId) (a : Served.Act)

/-- `get_tracker`. -/
def getTracker (s : Coord) (user : User) (j : JobId) : Except CoordError Tracked :=
  match s.tracked j with
  | none => .error (.jobNotFound j)
  | some t =>
    if t.registered then
      if t.job.user.id ≠ user.id then .error (.jobNotFound j) else .ok t
    else .error (.jobNotFound j)

/-- A step of call `c` on job `j`. -/
def onJob (s : Coord) (c : Nat) (user : User) (j : JobId)
    (f : Tracked → Option (Tracked × CallPc)) : Option Coord :=
  match s.tracked j with
  | none => none
  | some t => (f t).map fun r => (s.setTracked j r.1).setCall c { user, pc := r.2 }

/-- `spawn` up to the lock of `Memory`. -/
def stepSpawn (s : Coord) (c : Nat) (user : User) (name : String)
    (res : Except SpawnError Spawned) : Option Coord :=
  match validateSpawn name with
  | .error st => some (s.setCall c { user, pc := .rejected st })
  | .ok () =>
    match res with
    | .error err => some (s.setCall c { user, pc := .done (.error (.spawn err)) })
    | .ok child =>
      match s.tracked child.jobId with
      -- the id is not a new one
      | some _ => none
      | none =>
        some ((s.setTracked child.jobId (Tracked.start (child.job user))).setCall c
          { user, pc := .spawning (child.job user) })

/-- `logs`, `ps` and `kill` up to the first await after `get_tracker`. -/
def stepCall (s : Coord) (c : Nat) (user : User) (op : Op) (j : JobId) : Option Coord :=
  match validateJobId j.val with
  | .error st => some (s.setCall c { user, pc := .rejected st })
  | .ok () =>
    match s.getTracker user j with
    | .error err => some (s.setCall c { user, pc := .done (.error err) })
    | .ok _ => s.onJob c user j fun t => t.enter c user j op

/-- A step of a call that is past its first await. -/
def stepPending (s : Coord) (c : Nat) (spawning : Job → Tracked → Option (Tracked × CallPc))
    (waiting : Op → JobId → Tracked → Option (Tracked × CallPc)) : Option Coord :=
  match s.calls c with
  | some { user, pc := .spawning job } => s.onJob c user job.id (spawning job)
  | some { user, pc := .waiting op j } => s.onJob c user j (waiting op j)
  | _ => none

def step (s : Coord) : Act → Option Coord
  | .spawn c user name res => if (s.calls c).isNone then s.stepSpawn c user name res else none
  | .call c user op j => if (s.calls c).isNone then s.stepCall c user op j else none
  | .insert c => s.stepPending c (fun job t => t.insert job) fun _ _ _ => none
  | .reply c => s.stepPending c (fun _ _ => none) fun op j t => t.reply c j op
  | .timeout c => s.stepPending c (fun _ _ => none) fun op _ t => t.timeout c op
  | .cancel c => s.stepPending c (fun _ t => t.release) fun op _ t => t.cancel c op
  | .task j a =>
    match s.tracked j with
    | none => none
    | some t => if t.internal a then (t.serve a).map (s.setTracked j) else none

end Coord

end JobRunner
