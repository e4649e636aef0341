import JobRunner.Coordinator
import JobRunner.Lib.Journal

/-!
# What the coordinator is for

An abstract job store: for each job its record, whether it is listed for its owner, the calls that
have asked to kill it, and its log, a journal whose readers are the log streams. There are no tasks,
no channels and no waiting. A call is answered at one moment, and what the answer says is true of
the store at that moment. A job is killed for a call that has asked for it, which its owner has
made. The coordinator is compared with it in `Verify.Store`.

Where the source fails a call for reasons of its own, so may the store: a `spawn` may fail to start
its process, a `logs` may time out, and a `kill` may time out or report that `Child::kill` has
failed.
-/

namespace JobRunner

/-- What a log stream makes of an event. The end of the log is no item, but the end of the
stream. -/
def logFormat : JournalFormat FrameEvent FrameResult where
  last := FrameEvent.isTerminal
  item
    | .frame frame => some (.ok frame.toLogFrame)
    | .error err => some (.error (.internal ("log stream failed: " ++ err.display)))
    | .eof => none

/-- A record as `spawn` makes it. -/
def Job.isFresh (job : Job) : Bool :=
  job.state.isRunning && job.endedAt.isNone && job.killed.isNone

namespace Store

/-! ## Jobs -/

structure Entry where
  job : Job
  listed : Bool
  asked : Nat → Bool
  log : Journal FrameEvent FrameResult SubId

inductive EntryAct where
  | exit (status : ExitStatus) (now : DateTime)
  | kill (c : Nat) (now : DateTime)
  | write (ev : FrameEvent)
  | deliver (i : SubId) (item : FrameResult)
  | close (i : SubId)

namespace Entry

def start (job : Job) : Entry :=
  { job, listed := false, asked := fun _ => false, log := Journal.empty }

/-- Call `c` asks to kill the job. -/
def ask (e : Entry) (c : Nat) : Entry := { e with asked := Function.update e.asked c true }

def logStep (e : Entry) (a : Journal.Act FrameEvent FrameResult SubId) : Option Entry :=
  (e.log.step logFormat a).map fun log => { e with log }

/-- A running job exits once, and is killed only where a call has asked for it. Its log ends with
`EOF` only when it has exited. -/
def step (e : Entry) : EntryAct → Option Entry
  | .exit status now =>
    if e.job.state.isRunning then
      some { e with job := { e.job with endedAt := some now, state := .exited status } }
    else none
  | .kill c now =>
    if e.job.state.isRunning ∧ e.asked c then
      some { e with job := { e.job with killed := some { killedAt := now, user := e.job.user } } }
    else none
  | .write ev => if ev = .eof ∧ e.job.state.isRunning then none else e.logStep (.append ev)
  | .deliver i item => e.logStep (.deliver i item)
  | .close i => e.logStep (.close i)

end Entry

/-! ## Calls -/

inductive Query where
  | spawn (name : String)
  | job (op : Op) (j : JobId)

inductive Answer where
  | rejected (st : Status)
  | done (res : Except CoordError Ret)

end Store

/-- The jobs, and the answers given so far with the user of each. -/
structure Store where
  entries : JobId → Option Store.Entry
  answers : Nat → Option (User × Store.Answer)

namespace Store

def init : Store := { entries := fun _ => none, answers := fun _ => none }

def setEntry (s : Store) (j : JobId) (e : Entry) : Store :=
  { s with entries := Function.update s.entries j (some e) }

def setAnswer (s : Store) (c : Nat) (user : User) (a : Answer) : Store :=
  { s with answers := Function.update s.answers c (some (user, a)) }

/-- The listed job `j`, if it is one of `user`. -/
def find (s : Store) (user : User) (j : JobId) : Option Entry :=
  (s.entries j).filter fun e => e.listed && e.job.user = user

/-- What call `c` of `user` may be answered now. A listed job is answered by `spawn` in a step of
its own. -/
def truthful (s : Store) (c : Nat) (user : User) : Query → Answer → Bool
  | .spawn name, .rejected st => validateSpawn name = .error st
  | .spawn _, .done (.error (.spawn _)) => true
  | .job _ j, .rejected st => validateJobId j.val = .error st
  | .job _ j, .done (.error (.jobNotFound j')) => j' = j && (s.find user j).isNone
  | .job .ps j, .done (.ok (.job job)) => (s.find user j).any fun e => job = e.job
  | .job .kill j, .done (.ok (.job job)) =>
    (s.find user j).any fun e =>
      job = e.job && job.state.isExited && job.killed.isSome && e.asked c
  | .job .kill j, .done (.error (.jobNotRunning j')) =>
    j' = j && (s.find user j).any fun e => e.asked c && logFormat.complete e.log.entries
  | .job .kill j, .done (.error (.kill .txDropped)) =>
    (s.find user j).any fun e => e.asked c && logFormat.complete e.log.entries
  | .job .kill j, .done (.error (.kill .reqTimeout)) => (s.find user j).any fun e => e.asked c
  | .job .kill j, .done (.error (.kill (.failed _))) => (s.find user j).any fun e => e.asked c
  | .job .logs j, .done (.ok .stream) => (s.find user j).isSome
  | .job .logs j, .done (.error (.logsNotAvailable .timeoutWaitingForLogRx)) =>
    (s.find user j).isSome
  | _, _ => false

/-- The stream that call `c` is answered with, if it is. -/
def openStream (s : Store) (c : Nat) : Query → Answer → Option Store
  | .job .logs j, .done (.ok .stream) =>
    match s.entries j with
    | none => none
    | some e => (e.logStep (.subscribe c)).map (s.setEntry j)
  | _, _ => some s

inductive Act where
  | start (job : Job)
  | list (c : Nat) (job : Job)
  | ask (c : Nat) (user : User) (j : JobId)
  | answer (c : Nat) (user : User) (q : Query) (a : Answer)
  | job (j : JobId) (b : EntryAct)

def step (s : Store) : Act → Option Store
  | .start job =>
    match s.entries job.id with
    | none => if job.isFresh then some (s.setEntry job.id (Entry.start job)) else none
    | some _ => none
  | .list c job =>
    match s.answers c, s.entries job.id with
    | none, some e =>
      if e.listed = false ∧ job.isFresh ∧ job.user = e.job.user ∧ job.startedAt = e.job.startedAt
      then
        some ((s.setEntry job.id { e with listed := true }).setAnswer c job.user
          (.done (.ok (.job job))))
      else none
    | _, _ => none
  | .ask c user j =>
    match s.answers c, s.find user j with
    | none, some e => some (s.setEntry j (e.ask c))
    | _, _ => none
  | .answer c user q a =>
    match s.answers c with
    | none =>
      if s.truthful c user q a then (s.openStream c q a).map (·.setAnswer c user a) else none
    | some _ => none
  | .job j b =>
    match s.entries j with
    | none => none
    | some e => (e.step b).map (s.setEntry j)

end Store

end JobRunner
