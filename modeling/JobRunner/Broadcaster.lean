import JobRunner.Types
import JobRunner.Lib.Lts
import JobRunner.Lib.Mpsc
import Mathlib.Logic.Function.Basic

/-!
# `FrameBroadcaster` and `FrameRelay`

One task per job, `FrameBroadcaster::bcast`, keeps every event it has received from the tracker
and starts a `FrameRelay::relay` task for each log request. A relay is fed by the broadcaster
through a channel of 1024 events and feeds its client through another one.

Sender handles are counted where they are cloned and dropped: whether a loop ever sees the end of
its input is decided by who still holds a clone.
-/

namespace JobRunner

open Mpsc

/-! ## Relays -/

/-- Where `FrameRelay::relay` is: in `tokio::select!`, or in the loop that drains the rest after it.
The `pop_front` at the top of the loop belongs to the step before it. -/
inductive RelayPc where
  | loop
  | drain
  | done
  deriving DecidableEq, Repr

/-- A `FrameRelay::relay` task with its two channels, and the client at the far end: the events it
has received, in order, and whether it was told that no more will come. The task receives from
`bcastCh` (`bcast_tx`, `frame_rx`) and sends to `clientCh` (`frame_tx`, `relay_rx`). -/
structure Relay where
  frames : List FrameEvent
  toSend : Option FrameEvent
  pc : RelayPc
  bcastCh : Chan FrameEvent
  clientCh : Chan FrameEvent
  got : List FrameEvent
  ended : Bool

namespace Relay

/-- `if to_send.is_none() { to_send = frames.pop_front(); }` -/
def loopTop (r : Relay) : Relay :=
  match r.toSend, r.frames with
  | none, ev :: rest => { r with toSend := some ev, frames := rest }
  | _, _ => r

/-- The task `FrameRelay::start` spawns for a snapshot of the history. `bcast_tx` has two handles:
one in the relay returned to the broadcaster and one in the `self` the task was given. -/
def start (frames : List FrameEvent) : Relay :=
  loopTop
    { frames, toSend := none, pc := .loop, bcastCh := (Chan.new 1024).cloneTx
      clientCh := Chan.new 1024, got := [], ended := false }

/-- The broadcaster's handle on the relay is dropped. -/
def dropHandle (r : Relay) : Relay := { r with bcastCh := r.bcastCh.dropTx }

/-- `FrameRelay::accept`. -/
def accept (r : Relay) (ev : FrameEvent) : Bool × Relay :=
  match r.bcastCh.trySend ev with
  | .sent ch => (true, { r with bcastCh := ch })
  | _ => (false, r)

/-- The end of the task: its buffers, its receiver and both its senders go. -/
def finish (r : Relay) : Relay :=
  { r with
    frames := [], toSend := none, pc := .done
    bcastCh := r.bcastCh.dropTx.dropRx
    clientCh := r.clientCh.dropTx }

/-- The steps of a relay task, and of its client. -/
inductive Act where
  | recv
  | send
  | drain
  | clientRecv
  | clientDrop
  deriving DecidableEq, Repr

/-- One poll of the client's receiver. -/
def clientRecv (r : Relay) : Option (Option FrameEvent × Relay) :=
  if r.clientCh.rxOpen then
    match r.clientCh.recv with
    | none => none
    | some (some ev, ch) => some (some ev, { r with clientCh := ch, got := r.got ++ [ev] })
    | some (none, ch) => some (none, { r with clientCh := ch, ended := true })
  else none

/-- The client drops its receiver. -/
def clientDrop (r : Relay) : Relay := { r with clientCh := r.clientCh.dropRx }

def step (r : Relay) : Act → Option Relay
  | .recv =>
    if r.pc = .loop then
      match r.bcastCh.recv with
      | none => none
      | some (some ev, ch) => some (loopTop { r with frames := r.frames ++ [ev], bcastCh := ch })
      | some (none, _) => some { r with pc := .drain }
    else none
  | .send =>
    match r.pc, r.toSend with
    | .loop, some ev =>
      match r.clientCh.send ev with
      | none => none
      | some (true, ch) => some (loopTop { r with clientCh := ch, toSend := none })
      | some (false, _) => some r.finish
    | _, _ => none
  | .drain =>
    if r.pc = .drain then
      match r.toSend.toList ++ r.frames with
      | [] => some r.finish
      | ev :: rest =>
        match r.clientCh.send ev with
        | none => none
        | some (_, ch) => some { r with clientCh := ch, toSend := none, frames := rest }
    else none
  | .clientRecv => r.clientRecv.map Prod.snd
  | .clientDrop => if r.clientCh.rxOpen then some r.clientDrop else none

end Relay

/-! ## Subscribers -/

abbrev SubId := Nat

/-- A log subscription, from the call of `FrameBroadcaster::stream` on: in
`self.tx.send(req).await`; with its request in the channel and its oneshot awaited or not; with a
relay; or gone, when no relay was or will be started. -/
inductive Sub where
  | absent
  | sending
  | queued (waiting : Bool)
  | gone
  | live (r : Relay)

namespace Sub

/-- What `relays.retain(|r| r.accept(ev.clone()))` does to one registered relay. -/
def offer (ev : FrameEvent) : Sub → Bool × Sub
  | .live r =>
    match r.accept ev with
    | (true, r) => (true, .live r)
    | (false, r) => (false, .live r.dropHandle)
  | sub => (false, sub)

def dropHandle : Sub → Sub
  | .live r => .live r.dropHandle
  | sub => sub

end Sub

/-! ## The broadcaster -/

/-- `FrameBroadcaster::bcast` with its two channels, that of `frame_tx` and that of `req_tx`, and
all its subscribers. `handle` is the `FrameBroadcaster` kept in `JobTrackerInner`; the handles on
`req_tx` are that one, the `self` of the task and one clone in each pending `stream` call. -/
structure Broadcaster where
  frameCh : Chan FrameEvent
  reqCh : Chan SubId
  frames : List FrameEvent
  relays : List SubId
  frameRxOk : Bool
  reqRxOk : Bool
  handle : Bool
  subs : SubId → Sub

namespace Broadcaster

/-- `FrameBroadcaster::start` on the tracker's channel of two events. -/
def start : Broadcaster :=
  { frameCh := Chan.new 2, reqCh := (Chan.new 1).cloneTx, frames := [], relays := []
    frameRxOk := true, reqRxOk := true, handle := true, subs := fun _ => .absent }

/-- The steps of the broadcaster's task, of the `stream` calls and of the relays. -/
inductive Act where
  | frame
  | req (i : SubId)
  | reqEnd
  | subscribe (i : SubId)
  | sendReq (i : SubId)
  | giveUp (i : SubId)
  | relay (i : SubId) (a : Relay.Act)
  | dropHandle
  deriving DecidableEq, Repr

/-- `relays.retain(|r| r.accept(ev.clone()))`. -/
def retain (ev : FrameEvent) : List SubId → (SubId → Sub) → List SubId × (SubId → Sub)
  | [], subs => ([], subs)
  | i :: is, subs =>
    let kept := (subs i).offer ev
    let rest := retain ev is (Function.update subs i kept.2)
    (if kept.1 then i :: rest.1 else rest.1, rest.2)

/-- `relays.clear()`. -/
def clear : List SubId → (SubId → Sub) → (SubId → Sub)
  | [], subs => subs
  | i :: is, subs => clear is (Function.update subs i (subs i).dropHandle)

/-- The top of the loop: the task ends once both its receivers have. -/
def loopTop (s : Broadcaster) : Broadcaster :=
  if !s.frameRxOk && !s.reqRxOk then
    { s with frameCh := s.frameCh.dropRx, reqCh := s.reqCh.dropTx.dropRx }
  else s

/-- The handler of an event from the tracker, or of the end of that channel. -/
def onFrame (s : Broadcaster) (ch : Chan FrameEvent) : Option FrameEvent → Broadcaster
  | none => loopTop { s with
      frameCh := ch, frameRxOk := false, relays := [], subs := clear s.relays s.subs }
  | some ev =>
    let kept := retain ev s.relays s.subs
    { s with frameCh := ch, frames := s.frames ++ [ev], relays := kept.1, subs := kept.2 }

/-- The handler of the request of subscriber `i`: `FrameRelay::start`, which needs the client to
be still there, and the registration of the relay if there may be more frames. The `stream` call
returns, and its clone of the broadcaster with it. -/
def onReq (s : Broadcaster) (ch : Chan SubId) (i : SubId) : Option Broadcaster :=
  match s.subs i with
  | .queued true =>
    if s.frameRxOk then
      some { s with
        reqCh := ch.dropTx
        relays := s.relays ++ [i]
        subs := Function.update s.subs i (.live (Relay.start s.frames)) }
    else
      some { s with
        reqCh := ch.dropTx
        subs := Function.update s.subs i (.live (Relay.start s.frames).dropHandle) }
  | .queued false => some { s with reqCh := ch, subs := Function.update s.subs i .gone }
  | _ => none

def step (s : Broadcaster) : Act → Option Broadcaster
  | .frame =>
    if s.frameRxOk then
      match s.frameCh.recv with
      | none => none
      | some (ev, ch) => some (s.onFrame ch ev)
    else none
  | .req i =>
    if s.reqRxOk then
      match s.reqCh.recv with
      | some (some j, ch) => if j = i then s.onReq ch i else none
      | _ => none
    else none
  | .reqEnd =>
    if s.reqRxOk then
      match s.reqCh.recv with
      | some (none, ch) => some (loopTop { s with reqCh := ch, reqRxOk := false })
      | _ => none
    else none
  | .subscribe i =>
    match s.handle, s.subs i with
    | true, .absent =>
      some { s with reqCh := s.reqCh.cloneTx, subs := Function.update s.subs i .sending }
    | _, _ => none
  | .sendReq i =>
    match s.subs i with
    | .sending =>
      match s.reqCh.send i with
      | none => none
      | some (true, ch) =>
        some { s with reqCh := ch, subs := Function.update s.subs i (.queued true) }
      | some (false, ch) =>
        some { s with reqCh := ch.dropTx, subs := Function.update s.subs i .gone }
    | _ => none
  | .giveUp i =>
    -- the caller is dropped, or the second it waits for the oneshot is over
    match s.subs i with
    | .sending => some { s with reqCh := s.reqCh.dropTx, subs := Function.update s.subs i .gone }
    | .queued true =>
      some { s with reqCh := s.reqCh.dropTx, subs := Function.update s.subs i (.queued false) }
    | _ => none
  | .relay i a =>
    match s.subs i with
    | .live r =>
      match r.step a with
      | none => none
      | some r => some { s with subs := Function.update s.subs i (.live r) }
    | _ => none
  | .dropHandle =>
    if s.handle then some { s with handle := false, reqCh := s.reqCh.dropTx } else none

/-! ## The broadcaster with an arbitrary source -/

/-- The steps of a broadcaster and of whoever holds the one sender of its source channel. -/
inductive OpenAct where
  | act (a : Act)
  | offer (ev : FrameEvent)
  | closeSource
  deriving DecidableEq, Repr

def openStep (s : Broadcaster) : OpenAct → Option Broadcaster
  | .act a => s.step a
  | .offer ev =>
    if s.frameCh.senders = 0 then none
    else match s.frameCh.send ev with
      | none => none
      | some (_, ch) => some { s with frameCh := ch }
  | .closeSource =>
    if s.frameCh.senders = 0 then none else some { s with frameCh := s.frameCh.dropTx }

end Broadcaster

end JobRunner
