import JobRunner.Types
import JobRunner.Lib.Mpsc
import JobRunner.Lib.Waker
import JobRunner.Lib.Lts

/-!
# `WinHandleOutputStream`

The stream over one of a child's output pipes: the `read_handle` thread, which calls `ReadFile` and
sends what it gets over a `sync_channel(1024)`, and `poll_read`, which serves a task from the
channel. A step is one step of the thread, or half a poll: first the registration of the waker, then
the rest, so that the thread can run in between. `read` and `put` record the bytes `ReadFile` has
returned and the bytes put into the callers' buffers.
-/

namespace JobRunner.Win

open Mpsc

/-- What `ReadFile` returns: some bytes, `ERROR_BROKEN_PIPE`, or another error. -/
inductive ReadFile where
  | bytes (bs : List UInt8)
  | brokenPipe
  | failed (err : String)

/-- What goes over the channel. -/
abbrev Msg := Except IoError (List UInt8)

/-- Where `read_handle` is: at the top of the loop, in `ReadFile`, in `tx.send`, at `w.wake()`,
behind which it breaks after the last message, or behind the loop. At its end `tx` is dropped. -/
inductive Reader where
  | loop
  | reading
  | send (msg : Msg)
  | wake (last : Bool)
  | left
  | done

/-- What a poll returns; the bytes are those it has put into the caller's buffer. -/
inductive PollRead where
  | pending
  | ready (bs : List UInt8)
  | failed (err : IoError)
  | panicked

/-- The task that polls the stream: it has not polled yet, is in a poll that has registered the
waker, has polled, or has dropped the stream. -/
inductive Task where
  | start
  | polling (cap : Nat)
  | polled (res : PollRead)
  | dropped

/-- `read` is what the thread has read so far, and `put` what the polls have put into their
buffers. -/
structure Stream where
  reader : Reader
  ch : Chan Msg
  buffer : List UInt8
  pos : Nat
  waker : AtomicWaker
  task : Task
  read : List UInt8
  put : List UInt8

namespace Stream

/-- `WinHandleOutputStream::start`. -/
def start : Stream :=
  { reader := .loop, ch := Chan.new 1024, buffer := [], pos := 0, waker := AtomicWaker.new
    task := .start, read := [], put := [] }

/-- The thread calls `ReadFile`, the call returns, and so on to the end of the thread. A poll
starts, `buf.remaining()` being `cap`, and the rest of it follows. -/
inductive Act where
  | enter
  | readFile (res : ReadFile)
  | send
  | wake
  | leave
  | poll (cap : Nat)
  | finish
  | drop

/-- `poll_read` once there is data, or a chunk has been fetched. -/
def copy (s : Stream) (cap : Nat) : Stream :=
  let avail := s.buffer.length - s.pos
  let toCopy := min avail cap
  -- the subtraction, the slice and `put_slice` panic out of these bounds
  if s.pos ≤ s.buffer.length ∧ s.pos + toCopy ≤ s.buffer.length ∧ toCopy ≤ cap then
    let bs := (s.buffer.drop s.pos).take toCopy
    { s with pos := s.pos + toCopy, put := s.put ++ bs, task := .polled (.ready bs) }
  else { s with task := .polled .panicked }

/-- `poll_read` behind the registration of the waker. -/
def pollRead (s : Stream) (cap : Nat) : Stream :=
  if s.pos ≥ s.buffer.length then
    match s.ch.recv with
    | some (some (.ok bs), ch) => { s with ch, buffer := bs, pos := 0 }.copy cap
    | some (some (.error err), ch) => { s with ch, task := .polled (.failed err) }
    | none => { s with task := .polled .pending }
    | some (none, _) => { s with task := .polled (.ready []) }
  else s.copy cap

def step (s : Stream) : Act → Option Stream
  | .enter =>
    match s.reader with
    | .loop => some { s with reader := .reading }
    | _ => none
  | .readFile res =>
    match s.reader, res with
    | .reading, .bytes bs =>
      if bs.length ≤ 1024 then some { s with reader := .send (.ok bs), read := s.read ++ bs }
      else none
    | .reading, .brokenPipe => some { s with reader := .send (.ok []) }
    | .reading, .failed err =>
      some { s with reader := .send (.error ("ReadFile: ".append err)) }
    | _, _ => none
  | .send =>
    match s.reader with
    | .send (.ok bs) =>
      match s.ch.send (.ok bs) with
      | none => none
      | some (true, ch) => some { s with ch, reader := .wake bs.isEmpty }
      | some (false, _) => some { s with reader := .left }
    | .send (.error err) =>
      match s.ch.send (.error err) with
      | none => none
      | some (_, ch) => some { s with ch, reader := .wake true }
    | _ => none
  | .wake =>
    match s.reader with
    | .wake last =>
      some { s with waker := s.waker.wake, reader := if last then .left else .loop }
    | _ => none
  | .leave =>
    match s.reader with
    | .left => some { s with reader := .done, ch := s.ch.dropTx }
    | _ => none
  | .poll cap =>
    match s.task with
    | .start | .polled _ =>
      if 0 < cap then some { s with task := .polling cap, waker := s.waker.poll.register }
      else none
    | _ => none
  | .finish =>
    match s.task with
    | .polling cap => some (s.pollRead cap)
    | _ => none
  | .drop =>
    match s.task with
    | .start | .polled _ => some { s with task := .dropped, ch := s.ch.dropRx }
    | _ => none

/-- Whether a task polls the stream again, or for the first time: at once after some bytes, behind
a wake-up after a `Pending`, and not any more after the end or an error. -/
def mayPoll (s : Stream) : Bool :=
  match s.task with
  | .start => true
  | .polled .pending => s.waker.woken
  | .polled (.ready bs) => !bs.isEmpty
  | _ => false

/-- A step where the task polls as `consume_output` does. -/
def taskStep (s : Stream) : Act → Option Stream
  | .poll cap => if s.mayPoll then s.step (.poll cap) else none
  | a => s.step a

end Stream

end JobRunner.Win
