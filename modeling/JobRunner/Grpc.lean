import JobRunner.Types

/-!
# The gRPC side of the coordinator

The conversions of `grpc.rs`: the checks of incoming requests, the statuses of the coordinator's
errors, and the messages for jobs and log frames. A conversion that panics has the value `none`.
-/

namespace JobRunner

/-! ## Statuses -/

inductive Code where
  | invalidArgument
  | notFound
  | internal
  | unauthenticated
  deriving DecidableEq, Repr

structure Status where
  code : Code
  message : String
  deriving DecidableEq, Repr

namespace Status

def invalidArgument (message : String) : Status := { code := .invalidArgument, message }
def notFound (message : String) : Status := { code := .notFound, message }
def internal (message : String) : Status := { code := .internal, message }
def unauthenticated (message : String) : Status := { code := .unauthenticated, message }

end Status

/-! ## Errors of the coordinator -/

/-- `spawn::Error` on Unix. -/
inductive SpawnError where
  | spawn (err : IoError)
  | noPid
  deriving DecidableEq, Repr

inductive FrameError where
  | broadcasterUnavailableForLogs
  | timeoutWaitingForLogRx
  | getLogStream
  deriving DecidableEq, Repr

/-- Why `JobTracker::kill` failed. -/
inductive KillError where
  | reqSendFailed
  | reqTimeout
  | txDropped
  | failed (err : IoError)
  deriving DecidableEq, Repr

/-- `coord::Error`. -/
inductive CoordError where
  | jobNotFound (jobId : JobId)
  | noPid (jobId : JobId)
  | logsNotAvailable (err : FrameError)
  | jobNotRunning (jobId : JobId)
  | kill (err : KillError)
  | spawn (err : SpawnError)
  deriving DecidableEq, Repr

/-- `From<coord::Error> for Status`. -/
def Status.ofError : CoordError → Status
  | .jobNotFound _ => .notFound "job not found"
  | .jobNotRunning _ => .notFound "job not found"
  | _ => .internal ""

/-! ## Requests -/

/-- `SpawnRequest::validate`. -/
def validateSpawn (name : String) : Except Status Unit :=
  if name.isEmpty then .error (.invalidArgument "name required") else .ok ()

/-- `validate` of the other three requests. -/
def validateJobId (jobId : String) : Except Status Unit :=
  if jobId.isEmpty then .error (.invalidArgument "job id required") else .ok ()

/-! ## Jobs -/

namespace Pb

/-- `prost_types::Timestamp`. -/
structure Timestamp where
  seconds : Int
  nanos : Int
  deriving DecidableEq, Repr

structure User where
  id : String
  deriving DecidableEq, Repr

structure Killed where
  killedAt : Option Timestamp
  user : Option User
  deriving DecidableEq, Repr

/-- The states a job is reported in. `JobCrashedState` is never used. -/
inductive State where
  | running (pid : UInt32)
  | exited (exitCode : Int32)
  deriving DecidableEq, Repr

structure Job where
  id : String
  owner : Option User
  startedAt : Option Timestamp
  endedAt : Option Timestamp
  killed : Option Killed
  state : Option State
  deriving DecidableEq, Repr

/-- A frame of a log stream. -/
structure LogFrame where
  kind : Int
  bs : List UInt8
  deriving DecidableEq, Repr

end Pb

/-- `datetime_to_timestamp`: seconds rounded down, and the nanoseconds above them. -/
def DateTime.toTimestamp (dt : DateTime) : Pb.Timestamp :=
  { seconds := dt.nanos / 1000000000, nanos := dt.nanos % 1000000000 }

def User.toPb (user : User) : Pb.User := { id := user.id }

def JobKilled.toPb (k : JobKilled) : Pb.Killed :=
  { killedAt := some k.killedAt.toTimestamp, user := some k.user.toPb }

/-- The state of a reported job. `status.code.unwrap()` panics without a code. -/
def JobState.toPb : JobState → Option Pb.State
  | .running pid => some (.running pid.pid)
  | .exited status => status.code.map .exited

/-- `From<Job> for pb::jobs::Job`. -/
def Job.toPb (job : Job) : Option Pb.Job := do
  let state ← job.state.toPb
  some
    { id := job.id.val
      owner := some job.user.toPb
      startedAt := some job.startedAt.toTimestamp
      endedAt := job.endedAt.map DateTime.toTimestamp
      killed := job.killed.map JobKilled.toPb
      state := some state }

/-- The conversion returns unless the job was ended by a signal. -/
theorem Job.toPb_isSome (job : Job) :
    job.toPb.isSome = true ↔ ∀ status, job.state = .exited status → status.code.isSome = true := by
  unfold Job.toPb
  cases hst : job.state with
  | running pid => simp [JobState.toPb]
  | exited status => cases hc : status.code <;> simp [JobState.toPb, hc]

/-! ## Log frames -/

/-- `StreamKind::to_log_frame_kind`. -/
def StreamKind.toLogFrameKind : StreamKind → Int
  | .stdout => 0
  | .stderr => 1

theorem StreamKind.toLogFrameKind_inj {k k' : StreamKind} :
    k.toLogFrameKind = k'.toLogFrameKind ↔ k = k' := by
  cases k <;> cases k' <;> decide

def Frame.toLogFrame (frame : Frame) : Pb.LogFrame :=
  { kind := frame.kind.toLogFrameKind, bs := frame.bs }

end JobRunner
