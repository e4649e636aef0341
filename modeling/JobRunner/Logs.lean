import JobRunner.Pipeline

/-!
# `GrpcStoreImpl::logs`

The task that forwards the events of a subscription to the gRPC stream of its client, over a
channel of one item. The forwarder is the client of the relay; the client at the far end of the
gRPC stream is a client of the forwarder.
-/

namespace JobRunner

open Mpsc

abbrev FrameResult := Except Status Pb.LogFrame

/-- Where the forwarding task is: in `records.recv().await`, or in `tx.send(..).await` of an item,
behind which it breaks if it is the last. -/
inductive FwdPc where
  | recv
  | send (item : FrameResult) (last : Bool)
  | done
  deriving DecidableEq

/-- A forwarding task with its channel, and the gRPC client: what it has received of the stream,
and whether the stream has ended for it. -/
structure Forwarder where
  pc : FwdPc
  ch : Chan FrameResult
  got : List FrameResult
  ended : Bool

namespace Forwarder

def start : Forwarder := { pc := .recv, ch := Chan.new 1, got := [], ended := false }

/-- What the loop does with an event, or with the end of the events. -/
def onEvent : Option FrameEvent → FwdPc
  | none => .send (.error (.internal "log stream terminated unexpectedly")) true
  | some (.frame frame) => .send (.ok frame.toLogFrame) false
  | some (.error err) => .send (.error (.internal ("log stream failed: " ++ err.display))) true
  | some .eof => .done

/-- The end of the task: its sender goes. -/
def finish (f : Forwarder) : Forwarder := { f with pc := .done, ch := f.ch.dropTx }

/-- The steps of the forwarding task and of its client. -/
inductive Act where
  | recv
  | send
  | clientRecv
  | clientDrop
  deriving DecidableEq

/-- One poll of the gRPC stream. -/
def clientRecv (f : Forwarder) : Option Forwarder :=
  if f.ch.rxOpen then
    match f.ch.recv with
    | none => none
    | some (some item, ch) => some { f with ch, got := f.got ++ [item] }
    | some (none, ch) => some { f with ch, ended := true }
  else none

/-- The client goes away. -/
def clientDrop (f : Forwarder) : Option Forwarder :=
  if f.ch.rxOpen then some { f with ch := f.ch.dropRx } else none

end Forwarder

/-- A tracked job with the log streams served from it. -/
structure Served where
  pl : Pipeline
  fwds : SubId → Option Forwarder

namespace Served

def start (job : Job) : Served := { pl := Pipeline.start job, fwds := fun _ => none }

/-- The steps of a client on its relay's channel, which are those of a forwarder here. -/
def ofClient : Pipeline.Act → Bool
  | .bcast (.relay _ .clientRecv) => true
  | .bcast (.relay _ .clientDrop) => true
  | _ => false

inductive Act where
  | pipe (a : Pipeline.Act)
  | openLogs (i : SubId)
  | abandon (i : SubId)
  | fwd (i : SubId) (a : Forwarder.Act)

def setRelay (s : Served) (i : SubId) (r : Relay) : Served :=
  { s with
    pl := { s.pl with
      bc := { s.pl.bc with subs := Function.update s.pl.bc.subs i (.live r) } } }

def setFwd (s : Served) (i : SubId) (f : Forwarder) : Served :=
  { s with fwds := Function.update s.fwds i (some f) }

/-- The forwarder of `i`, whose relay is `r`. When its task ends it drops `records`. -/
def stepFwd (s : Served) (i : SubId) (r : Relay) (f : Forwarder) : Forwarder.Act → Option Served
  | .recv =>
    if f.pc = .recv then
      match r.clientRecv with
      | none => none
      | some (ev, r) =>
        match Forwarder.onEvent ev with
        | .done => some ((s.setRelay i r.clientDrop).setFwd i f.finish)
        | pc => some ((s.setRelay i r).setFwd i { f with pc })
    else none
  | .send =>
    match f.pc with
    | .send item last =>
      match f.ch.send item with
      | none => none
      | some (true, ch) =>
        if last then some ((s.setRelay i r.clientDrop).setFwd i { f with ch }.finish)
        else some (s.setFwd i { f with pc := .recv, ch })
      | some (false, _) => some ((s.setRelay i r.clientDrop).setFwd i f.finish)
    | _ => none
  | .clientRecv => f.clientRecv.map (s.setFwd i)
  | .clientDrop => f.clientDrop.map (s.setFwd i)

def step (s : Served) : Act → Option Served
  | .pipe a => if ofClient a then none else (s.pl.step a).map fun pl => { s with pl }
  | .openLogs i =>
    -- `stream` has returned the receiver to the handler
    match s.pl.bc.subs i, s.fwds i with
    | .live r, none => if r.clientCh.rxOpen then some (s.setFwd i Forwarder.start) else none
    | _, _ => none
  | .abandon i =>
    -- the handler is gone, and the receiver with it
    match s.pl.bc.subs i, s.fwds i with
    | .live r, none => if r.clientCh.rxOpen then some (s.setRelay i r.clientDrop) else none
    | _, _ => none
  | .fwd i a =>
    match s.pl.bc.subs i, s.fwds i with
    | .live r, some f => s.stepFwd i r f a
    | _, _ => none

end Served

end JobRunner
