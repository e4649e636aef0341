/-!
# Value types of the job runner

The values of `proc/types.rs` and the frame and error types of `proc/coord.rs`. `Arc`s are the
values they point to; a clock reading is a number of nanoseconds since the Unix epoch, supplied
with the step that reads the clock; an `io::Error` is its display text.
-/

namespace JobRunner

/-! ## Users, jobs and job states -/

structure User where
  id : String
  deriving DecidableEq, Repr

/-- General metadata about any operation on the coordinator. -/
structure Ctx where
  user : User
  deriving DecidableEq, Repr

structure JobId where
  val : String
  deriving DecidableEq, Repr

structure Pid where
  pid : UInt32
  deriving DecidableEq, Repr

/-- `chrono::DateTime<Utc>`. -/
structure DateTime where
  nanos : Int
  deriving DecidableEq, Repr

/-- `std::process::ExitStatus` on Unix: the child called exit, or a signal ended it. -/
inductive ProcStatus where
  | exited (code : Int32)
  | signaled (signal : Int32)
  deriving DecidableEq, Repr

/-- `std::process::ExitStatus::code`: `none` when a signal ended the process. -/
def ProcStatus.code : ProcStatus → Option Int32
  | .exited code => some code
  | .signaled _ => none

structure ExitStatus where
  code : Option Int32
  deriving DecidableEq, Repr

/-- `From<std::process::ExitStatus> for ExitStatus`. -/
def ExitStatus.ofProc (es : ProcStatus) : ExitStatus := { code := es.code }

inductive JobState where
  | running (pid : Pid)
  | exited (status : ExitStatus)
  deriving DecidableEq, Repr

def JobState.isRunning : JobState → Bool
  | .running _ => true
  | .exited _ => false

def JobState.isExited : JobState → Bool
  | .running _ => false
  | .exited _ => true

structure JobKilled where
  killedAt : DateTime
  user : User
  deriving DecidableEq, Repr

/-- The primary view of job state, excluding output streams. -/
structure Job where
  id : JobId
  user : User
  killed : Option JobKilled
  startedAt : DateTime
  endedAt : Option DateTime
  state : JobState
  deriving DecidableEq, Repr

/-- A new job in the started state. -/
def Job.started (jobId : JobId) (user : User) (pid : Pid) (now : DateTime) : Job :=
  { id := jobId, user, killed := none, startedAt := now, endedAt := none, state := .running pid }

/-! ## Output frames -/

abbrev IoError := String

inductive StreamKind where
  | stdout
  | stderr
  deriving DecidableEq, Repr

def StreamKind.display : StreamKind → String
  | .stdout => "stdout"
  | .stderr => "stderr"

structure Frame where
  kind : StreamKind
  bs : List UInt8
  deriving DecidableEq, Repr

/-- `TrackerError`. The event a `SendError` returns to its sender is the frame that was not
sent. -/
inductive TrackerError where
  | waitChild (err : IoError)
  | readOutput (kind : StreamKind) (err : IoError)
  | broadcasterDisappeared (frame : Frame)
  deriving DecidableEq, Repr

def TrackerError.display : TrackerError → String
  | .waitChild err => "failed to wait for child process: " ++ err
  | .readOutput kind err => "read " ++ kind.display ++ ": " ++ err
  | .broadcasterDisappeared _ => "broadcaster disappeared: channel closed"

/-- What a subscriber of a job's output receives. `error` and `eof` are terminal. -/
inductive FrameEvent where
  | frame (frame : Frame)
  | error (err : TrackerError)
  | eof
  deriving DecidableEq, Repr

namespace FrameEvent

def isTerminal : FrameEvent → Bool
  | .frame _ => false
  | .error _ => true
  | .eof => true

/-- The bytes an event carries for one of the two output streams. -/
def bytes (k : StreamKind) : FrameEvent → List UInt8
  | .frame f => if f.kind = k then f.bs else []
  | .error _ => []
  | .eof => []

@[simp] theorem isTerminal_frame (f : Frame) : (FrameEvent.frame f).isTerminal = false := rfl
@[simp] theorem isTerminal_error (e : TrackerError) : (FrameEvent.error e).isTerminal = true := rfl
@[simp] theorem isTerminal_eof : FrameEvent.eof.isTerminal = true := rfl

/-- The bytes of one stream in a sequence of events, in order. -/
def streamBytes (k : StreamKind) (evs : List FrameEvent) : List UInt8 :=
  evs.flatMap (bytes k)

@[simp] theorem streamBytes_nil (k : StreamKind) : streamBytes k [] = [] := rfl

@[simp] theorem streamBytes_append (k : StreamKind) (as bs : List FrameEvent) :
    streamBytes k (as ++ bs) = streamBytes k as ++ streamBytes k bs :=
  List.flatMap_append

@[simp] theorem streamBytes_cons (k : StreamKind) (a : FrameEvent) (as : List FrameEvent) :
    streamBytes k (a :: as) = a.bytes k ++ streamBytes k as :=
  List.flatMap_cons

theorem streamBytes_mono {k : StreamKind} {as bs : List FrameEvent} (h : as <+: bs) :
    streamBytes k as <+: streamBytes k bs := by
  obtain ⟨t, rfl⟩ := h
  exact ⟨streamBytes k t, (streamBytes_append k as t).symm⟩

end FrameEvent

end JobRunner
