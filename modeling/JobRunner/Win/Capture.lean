import JobRunner.Output
import JobRunner.Win.Stream

/-!
# Capturing an output pipe on Windows

`consume_output` reading a `WinHandleOutputStream` over a child's pipe, into the tracker's channel.
A `ReadFile` on the empty pipe waits. It is ended by bytes, by the close of the last write end, and
by a write of no bytes, which makes it return no bytes; a write of no bytes that finds no `ReadFile`
waiting has no effect. `ReadFile` does not fail otherwise, and the tracker keeps its receiver.
-/

namespace JobRunner.Win

open Mpsc

/-- One output of a child: the pipe, the `consume_output` task with its channel, the stream between
them, and the frames the task has sent. `cut` tells whether a write of no bytes has ended a
`ReadFile`. -/
structure Capture where
  out : Output
  stream : Stream
  cut : Bool
  frames : List Frame

namespace Capture

def start (kind : StreamKind) : Capture :=
  { out := Output.start kind, stream := Stream.start, cut := false, frames := [] }

/-- The child writes, and the last write end is closed. The thread calls `ReadFile`, which returns
`n` bytes or `ERROR_BROKEN_PIPE`, and goes on to its end. `consume_output` polls the stream, the
poll finishes, and it sends a frame or an error, which the tracker takes. -/
inductive Act where
  | write (bs : List UInt8)
  | close
  | enter
  | readFile (n : Nat)
  | brokenPipe
  | sendMsg
  | wake
  | leave
  | poll
  | finish
  | send
  | recv

/-- `consume_output` leaves its loop, and the stream is dropped. -/
def dropStream (s : Stream) : Stream := { s with task := .dropped, ch := s.ch.dropRx }

/-- `consume_output` behind `s.read(..)`. -/
def consume (s : Capture) : Capture :=
  match s.stream.task with
  | .polled (.ready []) => { s with out := s.out.finish, stream := dropStream s.stream }
  | .polled (.ready bs) => { s with out := { s.out with pc := .send { kind := s.out.kind, bs } } }
  | .polled (.failed err) =>
    { s with
      out := { s.out with pc := .sendErr (.readOutput s.out.kind err) }
      stream := dropStream s.stream }
  | _ => s

def step (s : Capture) : Act → Option Capture
  | .write bs =>
    if s.out.pipe.closed then none
    else
      match bs, s.stream.reader, s.out.pipe.unread with
      | [], .reading, [] => do
        let stream ← s.stream.step (.readFile (.bytes []))
        some { s with stream, cut := true }
      | bs, _, _ => do
        let out ← s.out.step (.write bs)
        some { s with out }
  | .close => do
    let out ← s.out.step .close
    some { s with out }
  | .enter => do
    let stream ← s.stream.step .enter
    some { s with stream }
  | .readFile n =>
    if 1 ≤ n ∧ n ≤ s.out.pipe.unread.length then do
      let stream ← s.stream.step (.readFile (.bytes (s.out.pipe.unread.take n)))
      let pipe := { s.out.pipe with unread := s.out.pipe.unread.drop n }
      some { s with stream, out := { s.out with pipe } }
    else none
  | .brokenPipe =>
    if s.out.pipe.unread = [] ∧ s.out.pipe.closed = true then do
      let stream ← s.stream.step (.readFile .brokenPipe)
      some { s with stream }
    else none
  | .sendMsg => do
    let stream ← s.stream.step .send
    some { s with stream }
  | .wake => do
    let stream ← s.stream.step .wake
    some { s with stream }
  | .leave => do
    let stream ← s.stream.step .leave
    some { s with stream }
  | .poll =>
    match s.out.pc with
    | .read => do
      let stream ← s.stream.taskStep (.poll 1024)
      some { s with stream }
    | _ => none
  | .finish =>
    match s.out.pc with
    | .read => do
      let stream ← s.stream.step .finish
      some { s with stream }.consume
    | _ => none
  | .send =>
    match s.out.pc with
    | .send frame =>
      match s.out.ch.send (.ok frame) with
      | none => none
      | some (true, ch) =>
        some { s with out := { s.out with pc := .read, ch }, frames := s.frames ++ [frame] }
      | some (false, _) => some { s with out := s.out.finish, stream := dropStream s.stream }
    | .sendErr _ => do
      let out ← s.out.step .send
      some { s with out }
    | _ => none
  | .recv =>
    match s.out.recv with
    | some (some _, out) => some { s with out }
    | _ => none

/-- The pipe is closed, and nothing more happens. -/
def AtRest (s : Capture) : Prop :=
  s.out.pipe.closed = true ∧ ∀ a, a ≠ .close → s.step a = none

/-- The bytes of the frames that `consume_output` has produced. -/
def captured (s : Capture) : List UInt8 := s.frames.flatMap Frame.bs

end Capture

end JobRunner.Win
