import JobRunner.Logs
import JobRunner.Coordinator

/-!
# The command line client

`bin/client.rs` from the point where it is connected: what it asks for, what it writes, and the
code it exits with. The text of the error it reports on stderr is left open. The `Crashed` state,
which the server does not report, is left out.
-/

namespace JobRunner

namespace Pb

inductive LogFrameKind where
  | stdout
  | stderr
  deriving DecidableEq, Repr

/-- `LogFrame::kind`: an unknown kind is the default one. -/
def LogFrame.getKind (frame : LogFrame) : LogFrameKind :=
  if frame.kind = 1 then .stderr else .stdout

end Pb

/-- `From<StreamKind> for LogFrameKind`. -/
def StreamKind.toPb : StreamKind → Pb.LogFrameKind
  | .stdout => .stdout
  | .stderr => .stderr

namespace Client

/-- How `main` comes to an end: with success, by `must_ok` of an error that has a status, or by an
error of its own. -/
inductive Exit where
  | done
  | status (st : Status)
  | failed
  deriving DecidableEq

/-- `must_ok` exits with 1, and so does a `main` that returns an error. -/
def Exit.code : Exit → Nat
  | .done => 0
  | .status _ => 1
  | .failed => 1

/-! ## Commands with one response -/

/-- `print_job`. -/
def printJob (job : Pb.Job) : Except String String :=
  match job.state with
  | none => .error "no job state in reponse"
  | some (.running pid) => .ok ("Running pid=" ++ toString pid)
  | some (.exited exitCode) => .ok ("Exited code=" ++ toString exitCode)

/-- What `ps` and `kill` make of their response: the line they print, and the exit. A handler that
panics resets its stream, and the client gets a status `reset` for it. -/
def onJob (reset : Status) : Response → Option String × Exit
  | .status st => (none, .status st)
  | .job job =>
    match printJob job with
    | .ok line => (some line, .done)
    | .error _ => (none, .failed)
  | .stream => (none, .failed)
  | .panicked => (none, .status reset)

/-! ## `logs` -/

/-- Where `logs` is: in `stream.message().await`, in `write_all` or `flush` with some bytes left, or
at the end of `main`. -/
inductive LogsPc where
  | message
  | write (kind : Pb.LogFrameKind) (rest : List UInt8)
  | exited (exit : Exit)

/-- The loop of `logs`: the messages it has taken from its stream, and what it has written of
them. -/
structure Logs where
  pc : LogsPc
  read : Nat
  out : Pb.LogFrameKind → List UInt8

namespace Logs

def start : Logs := { pc := .message, read := 0, out := fun _ => [] }

/-- What `stream.message()` returns, `n` bytes that go out, the end of a flush, or the error that
`write_all` or `flush` returns. -/
inductive Act where
  | message (res : Except Status (Option Pb.LogFrame))
  | write (n : Nat)
  | flushed
  | fail

def step (c : Logs) : Act → Option Logs
  | .message res =>
    match c.pc with
    | .message =>
      match res with
      | .error st => some { c with pc := .exited (.status st) }
      | .ok none => some { c with pc := .exited .done }
      | .ok (some frame) => some { c with pc := .write frame.getKind frame.bs, read := c.read + 1 }
    | _ => none
  | .write n =>
    match c.pc with
    | .write kind rest =>
      if n ≤ rest.length then
        some { c with
          pc := .write kind (rest.drop n)
          out := Function.update c.out kind (c.out kind ++ rest.take n) }
      else none
    | _ => none
  | .flushed =>
    match c.pc with
    | .write _ [] => some { c with pc := .message }
    | _ => none
  | .fail =>
    match c.pc with
    | .write _ _ => some { c with pc := .exited .failed }
    | _ => none

/-- What the client says of the error it exits with: `must_ok` logs a status, and a `main` that
returns an error prints it. Their text, with the time of the log line, is `report`. -/
def errorReport (report : Exit → List UInt8) (c : Logs) : List UInt8 :=
  match c.pc with
  | .exited .done => []
  | .exited exit => report exit
  | _ => []

/-- All that the client has written. Both the frames of stderr and its error report go there. -/
def written (report : Exit → List UInt8) (c : Logs) : Pb.LogFrameKind → List UInt8
  | .stdout => c.out .stdout
  | .stderr => c.out .stderr ++ c.errorReport report

end Logs

end Client

/-- A job with the client of its log stream `i`. What the stream has handed over reaches the
client in order, unless the connection is lost. -/
structure ServedClient where
  served : Served
  client : Client.Logs

namespace ServedClient

def start (job : Job) : ServedClient := { served := Served.start job, client := Client.Logs.start }

/-- A step of the job, the next message or the end of the stream, the loss of the connection, or a
step of the client. -/
inductive Act where
  | served (a : Served.Act)
  | message
  | lost (st : Status)
  | client (a : Client.Logs.Act)

/-- What `stream.message()` returns, if it returns. -/
def next (f : Forwarder) (read : Nat) : Option (Except Status (Option Pb.LogFrame)) :=
  match f.got[read]? with
  | some (.ok frame) => some (.ok (some frame))
  | some (.error st) => some (.error st)
  | none => if f.ended then some (.ok none) else none

def step (i : SubId) (s : ServedClient) : Act → Option ServedClient
  | .served a => (s.served.step a).map fun served => { s with served }
  | .message =>
    match s.served.fwds i with
    | none => none
    | some f =>
      match next f s.client.read with
      | none => none
      | some res => (s.client.step (.message res)).map fun client => { s with client }
  | .lost st => (s.client.step (.message (.error st))).map fun client => { s with client }
  | .client a =>
    match a with
    | .message _ => none
    | a => (s.client.step a).map fun client => { s with client }

end ServedClient

end JobRunner
