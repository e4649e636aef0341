import JobRunner.Types
import JobRunner.Lib.Mpsc

/-!
# The two output streams of a child

`JobTracker::output_rx` and `consume_output`: one task per stream reads the child's pipe in chunks
of at most 1024 bytes and hands each chunk to the tracker over a channel of 16 results.

The pipe is the part of the operating system the task reads from. `written` is everything the
child has written so far, `unread` the part the task has not read yet; once the last write end is
closed nothing is written any more, and a read of zero bytes means exactly that the pipe is closed
and empty.
-/

namespace JobRunner

open Mpsc

/-- A pipe between the child and the server. -/
structure Pipe where
  written : List UInt8
  unread : List UInt8
  closed : Bool

def Pipe.empty : Pipe := { written := [], unread := [], closed := false }

/-- Where `consume_output` is: in `s.read(..).await`, or in `tx.send(..).await` of a frame or of an
error. -/
inductive ReadPc where
  | read
  | send (frame : Frame)
  | sendErr (err : TrackerError)
  | done
  deriving DecidableEq

/-- One output stream: its pipe, its `consume_output` task and the task's channel to the tracker.
The `tx` of the task and the clone given to `consume` belong to this one task, so they count as
one sender, gone when the task is done. -/
structure Output where
  kind : StreamKind
  pipe : Pipe
  pc : ReadPc
  ch : Chan (Except TrackerError Frame)

namespace Output

/-- `output_rx`. -/
def start (kind : StreamKind) : Output :=
  { kind, pipe := Pipe.empty, pc := .read, ch := Chan.new 16 }

/-- The steps of the child on its pipe and of the reading task. -/
inductive Act where
  | write (bs : List UInt8)
  | close
  | read (n : Nat)
  | readEof
  | readErr (err : IoError)
  | send
  deriving DecidableEq

/-- The end of the task: its senders go. -/
def finish (o : Output) : Output := { o with pc := .done, ch := o.ch.dropTx }

def step (o : Output) : Act → Option Output
  | .write bs =>
    if o.pipe.closed then none
    else some { o with
      pipe := { o.pipe with written := o.pipe.written ++ bs, unread := o.pipe.unread ++ bs } }
  | .close => some { o with pipe := { o.pipe with closed := true } }
  | .read n =>
    if o.pc = .read ∧ 1 ≤ n ∧ n ≤ 1024 ∧ n ≤ o.pipe.unread.length then
      some { o with
        pipe := { o.pipe with unread := o.pipe.unread.drop n }
        pc := .send { kind := o.kind, bs := o.pipe.unread.take n } }
    else none
  | .readEof =>
    if o.pc = .read ∧ o.pipe.unread = [] ∧ o.pipe.closed = true then some o.finish else none
  | .readErr err =>
    if o.pc = .read then some { o with pc := .sendErr (.readOutput o.kind err) } else none
  | .send =>
    match o.pc with
    | .send frame =>
      match o.ch.send (.ok frame) with
      | none => none
      | some (true, ch) => some { o with pc := .read, ch }
      | some (false, _) => some o.finish
    | .sendErr err =>
      match o.ch.send (.error err) with
      | none => none
      | some (_, ch) => some { o with ch }.finish
    | _ => none

/-- The tracker's side: one poll of the stream's receiver. -/
def recv (o : Output) : Option (Option (Except TrackerError Frame) × Output) :=
  match o.ch.recv with
  | none => none
  | some (ev, ch) => some (ev, { o with ch })

/-- The tracker drops the receiver. -/
def dropRx (o : Output) : Output := { o with ch := o.ch.dropRx }

end Output

end JobRunner
