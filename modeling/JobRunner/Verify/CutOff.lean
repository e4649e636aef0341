import JobRunner.Verify.Pipeline

/-!
# A relay that was cut off

When the channel of a relay is full the broadcaster drops its handle on the relay, which is meant
to end the relay's task and with it the client's stream. The task keeps a handle of its own, so
its `frame_rx.recv()` waits for ever: a relay that is no longer registered hands over what it has
and then stays in its loop, with the client's channel open, for as long as the client listens.
-/

namespace JobRunner

open Mpsc

namespace Relay

/-- No step of the relay's task is enabled. -/
def Quiet (r : Relay) : Prop := r.step .recv = none ∧ r.step .send = none ∧ r.step .drain = none

/-- The task has returned and no sender of the client's channel is left. -/
def Finished (r : Relay) : Prop := r.pc = .done ∧ r.clientCh.senders = 0

/-- Moves left until everything in the relay is at the client. -/
def distance (r : Relay) : Nat :=
  4 * r.bcastCh.queue.length + 3 * r.frames.length + 2 * r.toSend.toList.length +
    r.clientCh.queue.length

theorem distance_loopTop (r : Relay) : r.loopTop.distance ≤ r.distance := by
  rcases r.loopTop_cases with ⟨ev, rest, hto, hfr, he⟩ | ⟨-, he⟩
  · rw [he]
    simp only [distance, hto, hfr, List.length_cons, Option.toList_some, Option.toList_none,
      List.length_nil]
    omega
  · exact Nat.le_of_eq (congrArg distance he)

/-- While the client reads, what the relay has moves on. -/
theorem progress {reg : Bool} {r : Relay} (hi : Inv reg r) (ho : r.clientCh.rxOpen = true)
    (h : ¬(r.Quiet ∧ r.clientCh.queue = [])) :
    ∃ a r', r.step a = some r' ∧ r'.clientCh.rxOpen = true ∧ r'.distance < r.distance := by
  have hpc : r.pc = .loop := hi.pc_of_open ho
  cases hq : r.clientCh.queue with
  | cons ev q =>
    refine ⟨.clientRecv,
      { r with clientCh := { r.clientCh with queue := q }, got := r.got ++ [ev] }, ?_, ho, ?_⟩
    · simp [step, clientRecv, ho, Chan.recv, hq]
    · simp [distance, hq]
  | nil =>
    cases hb : r.bcastCh.queue with
    | cons ev q =>
      refine ⟨.recv, loopTop { r with
        frames := r.frames ++ [ev], bcastCh := { r.bcastCh with queue := q } }, ?_, ?_, ?_⟩
      · simp [step, hpc, Chan.recv, hb]
      · simpa using ho
      · refine Nat.lt_of_le_of_lt (distance_loopTop _) ?_
        simp only [distance, hb, List.length_append, List.length_cons, List.length_nil]
        omega
    | nil =>
      cases hto : r.toSend with
      | some ev =>
        have hsend : r.clientCh.send ev = some (true, r.clientCh.push ev) := by
          refine Chan.send_eq_some_iff.2 (.inl ⟨rfl, ho, ?_, rfl⟩)
          rw [hq, hi.clientCap]
          decide
        refine ⟨.send, loopTop { r with clientCh := r.clientCh.push ev, toSend := none },
          ?_, ?_, ?_⟩
        · simp [step, hpc, hto, hsend]
        · simpa using ho
        · refine Nat.lt_of_le_of_lt (distance_loopTop _) ?_
          simp only [distance, hto, Chan.push_queue, List.length_append, List.length_cons,
            List.length_nil, Option.toList_some, Option.toList_none]
          omega
      | none =>
        refine (h ⟨⟨?_, ?_, ?_⟩, hq⟩).elim
        · have hs : r.bcastCh.senders ≠ 0 := by
            rw [hi.handles, if_neg (by simp [hpc])]
            omega
          simp [step, Chan.recv, hb, hs]
        · simp [step, hto]
        · simp [step, hpc]

/-- An unregistered relay whose client listens is waiting on its own handle. -/
theorem waits_on_itself {r : Relay} (hi : Inv false r) (ho : r.clientCh.rxOpen = true) :
    r.pc = .loop ∧ r.bcastCh.senders = 1 ∧ r.clientCh.senders = 1 := by
  have hpc : r.pc = .loop := hi.pc_of_open ho
  refine ⟨hpc, ?_, ?_⟩
  · rw [hi.handles, if_neg (by simp [hpc])]
    rfl
  · rw [hi.clientTx, if_neg (by simp [hpc])]

end Relay

namespace Broadcaster

variable {s s' : Broadcaster} {i : SubId}

/-- The subscriber has a relay, which the broadcaster has not, or no longer, registered. -/
def Unregistered (s : Broadcaster) (i : SubId) : Prop := i ∉ s.relays ∧ ∃ r, s.subs i = .live r

/-- A relay is never registered again. -/
theorem Unregistered.step (hu : s.Unregistered i) (h : Inv s) {a : OpenAct}
    (hs : s.openStep a = some s') : s'.Unregistered i := by
  obtain ⟨hni, r, hr⟩ := hu
  by_cases hframe : a = .act .frame
  · subst hframe
    obtain ⟨-, ⟨ev, q, hq, rfl⟩ | ⟨hq, hz, rfl⟩⟩ := step_frame hs
    · obtain ⟨hmem, hsub⟩ := onFrame_sub h { s.frameCh with queue := q } ev i
      exact ⟨fun hi => hni (hmem.1 hi).1, r, by rw [hsub, if_neg hni, hr]⟩
    · obtain ⟨-, -, hrel, hsub⟩ := onFrame_end_sub h s.frameCh i
      exact ⟨by simp [hrel], r, by rw [hsub, if_neg hni, hr]⟩
  by_cases hreq : a = .act (.req i)
  · -- a request is not pending any more
    subst hreq
    obtain ⟨-, q, hq, -⟩ := step_req hs
    obtain ⟨waiting, hw⟩ := h.queued i (by rw [hq]; exact List.mem_cons_self)
    rw [hr] at hw
    cases hw
  obtain ⟨hrel, -, -, hmove⟩ := move_of_step h hs hframe hreq
  refine ⟨fun hi => hni (hrel.1 hi), ?_⟩
  generalize hsub : s.subs i = sub at hmove
  generalize hsub' : s'.subs i = sub' at hmove
  rw [hsub] at hr
  cases hmove with
  | same => exact ⟨r, hr⟩
  | idle hn => exact (hn r hr).elim
  | own => exact ⟨_, rfl⟩

end Broadcaster

namespace Pipeline

variable {j₀ : Job} {acts : List Act} {p p' : Pipeline} {i : SubId}

/-- The broadcaster has an event to handle and a registered relay, of a client that listens, whose
channel is full. -/
def Overflows (p : Pipeline) (i : SubId) : Prop :=
  p.bc.frameCh.queue ≠ [] ∧ i ∈ p.bc.relays ∧
  ∃ r, p.bc.subs i = .live r ∧ r.clientCh.rxOpen = true ∧ r.bcastCh.queue.length = 1024

/-- Handling the event removes the relay, and leaves it otherwise as it was. -/
theorem removed_of_overflows (h : Inv j₀ acts p) (hover : p.Overflows i)
    (hs : p.step (.bcast .frame) = some p') :
    p'.bc.Unregistered i ∧ ∃ r, p'.bc.subs i = .live r ∧ r.clientCh.rxOpen = true := by
  obtain ⟨hne, hmem, r, hr, ho, hfull⟩ := hover
  obtain ⟨bc, hb, rfl⟩ := step_bcast hs
  obtain ⟨hinv, -⟩ := h.bc.live hr
  obtain ⟨-, ⟨ev, q, hq, rfl⟩ | ⟨hq, -, -⟩⟩ := Broadcaster.step_frame hb
  · have hoffer : (p.bc.subs i).offer ev = (false, .live r.dropHandle) := by
      rcases r.accept_cases ev with ⟨-, hl, -⟩ | ⟨-, he⟩
      · rw [hinv.bcastCap] at hl
        omega
      · rw [hr]
        simp only [Sub.offer, he]
    obtain ⟨hrel, hsub⟩ :=
      Broadcaster.onFrame_sub h.bc { p.bc.frameCh with queue := q } ev i
    rw [if_pos hmem, hoffer] at hsub
    refine ⟨⟨fun hi => ?_, r.dropHandle, hsub⟩, r.dropHandle, hsub, ho⟩
    have hkept := (hrel.1 hi).2
    rw [hoffer] at hkept
    cases hkept
  · exact (hne hq).elim

/-- What a client that keeps reading is to find in the end: once its relay has nothing left to do
and it has consumed all it was sent, its relay has finished and its channel is closed. -/
def ToldCutOff (p : Pipeline) (i : SubId) : Prop :=
  ∀ p' r, Lts.Reachable Pipeline.step p p' → p'.bc.subs i = .live r → r.clientCh.rxOpen = true →
    r.Quiet → r.clientCh.queue = [] → r.Finished

/-- A relay that is not registered, of a client that listens, in a reachable state. -/
def Lagging (j₀ : Job) (i : SubId) (p : Pipeline) : Prop :=
  (∃ acts, Inv j₀ acts p) ∧ p.bc.Unregistered i

theorem Lagging.step (h : Lagging j₀ i p) {a : Act} (hs : p.step a = some p') :
    Lagging j₀ i p' := by
  obtain ⟨⟨acts, hi⟩, hu⟩ := h
  refine ⟨⟨_, hi.step hs⟩, ?_⟩
  rcases bc_of_step hi hs with he | ⟨b, hb⟩
  · rw [he]
    exact hu
  · exact hu.step hi.bc hb

theorem Lagging.waits (h : Lagging j₀ i p) (hr : Lts.Reachable Pipeline.step p p') {r : Relay}
    (hsub : p'.bc.subs i = .live r) (ho : r.clientCh.rxOpen = true) :
    r.pc = .loop ∧ r.bcastCh.senders = 1 ∧ r.clientCh.senders = 1 := by
  obtain ⟨⟨acts, hi⟩, hni, -⟩ :=
    hr.invariant (I := Lagging j₀ i) h fun _ _ _ hl hs => hl.step hs
  obtain ⟨hinv, -⟩ := hi.bc.live hsub
  rw [decide_eq_false hni] at hinv
  exact Relay.waits_on_itself hinv ho

/-- The relay of `i` has handed over everything, and its client has taken it. -/
def Settled (i : SubId) (p : Pipeline) : Prop :=
  ∀ r, p.bc.subs i = .live r → r.Quiet ∧ r.clientCh.queue = []

def distance (i : SubId) (p : Pipeline) : Nat :=
  match p.bc.subs i with
  | .live r => r.distance
  | _ => 0

/-- A lagging relay whose client is still there. -/
def Listening (j₀ : Job) (i : SubId) (p : Pipeline) : Prop :=
  Lagging j₀ i p ∧ ∃ r, p.bc.subs i = .live r ∧ r.clientCh.rxOpen = true

theorem Listening.progress (h : Listening j₀ i p) (hns : ¬p.Settled i) :
    ∃ a p', p.step a = some p' ∧ Listening j₀ i p' ∧ p'.distance i < p.distance i := by
  obtain ⟨hl, r, hr, ho⟩ := h
  obtain ⟨⟨acts, hi⟩, -⟩ := id hl
  have hnot : ¬(r.Quiet ∧ r.clientCh.queue = []) := fun hquiet => hns fun r' hr' => by
    obtain rfl : r = r' := Sub.live.inj (hr.symm.trans hr')
    exact hquiet
  obtain ⟨b, r', hb, ho', hlt⟩ := Relay.progress (hi.bc.live hr).1 ho hnot
  have hstep : p.step (.bcast (.relay i b)) = some { p with
      bc := { p.bc with subs := Function.update p.bc.subs i (.live r') } } := by
    simp [Pipeline.step, Broadcaster.step, hr, hb]
  refine ⟨_, _, hstep, ⟨hl.step hstep, r', by simp, ho'⟩, ?_⟩
  simpa [distance, hr] using hlt

/-- The client can read on until nothing is left, and then its relay waits and its channel stays
open. -/
theorem Listening.not_told (h : Listening j₀ i p) : ¬p.ToldCutOff i := by
  intro htold
  obtain ⟨p', hreach, ⟨-, r, hr, ho⟩, hsettled⟩ :=
    Lts.Reachable.settles (I := Listening j₀ i) (Q := Settled i) (distance i)
      (fun _ => Listening.progress) h
  obtain ⟨hquiet, hempty⟩ := hsettled r hr
  obtain ⟨hpc, -, -⟩ := h.1.waits hreach hr ho
  obtain ⟨hdone, -⟩ := htold p' r hreach hr ho hquiet hempty
  rw [hpc] at hdone
  cases hdone

/-! ## A run that overflows a relay -/

/-- The subscriber `0` is registered before there is any output. -/
def subscribeRun : List Act := [.bcast (.subscribe 0), .bcast (.sendReq 0), .bcast (.req 0)]

/-- The child writes a byte, and it comes as far as the source channel of the broadcaster. -/
def writeRun (b : UInt8) : List Act :=
  [.output .stdout (.write [b]), .output .stdout (.read 1), .output .stdout .send,
    .recvOutput .stdout, .send]

/-- The child writes `n` bytes, each of which reaches the broadcaster; no relay takes a step. -/
def fillRun (b : UInt8) : Nat → List Act
  | 0 => []
  | n + 1 => fillRun b n ++ (writeRun b ++ [.bcast .frame])

/-- The output on stdout is idle, and the relay of subscriber `0` has not taken `n` events. -/
structure Filling (n : Nat) (p : Pipeline) : Prop where
  pc : p.trk.pc = .select
  streamOk : p.trk.streamOk .stdout = true
  childOk : p.trk.childOk = true
  read : (p.output .stdout).pc = .read
  notClosed : (p.output .stdout).pipe.closed = false
  unread : (p.output .stdout).pipe.unread = []
  out : (p.output .stdout).ch.queue = []
  outOpen : (p.output .stdout).ch.rxOpen = true
  outCap : (p.output .stdout).ch.cap = 16
  src : p.bc.frameCh.queue = []
  srcOpen : p.bc.frameCh.rxOpen = true
  srcCap : p.bc.frameCh.cap = 2
  frameRxOk : p.bc.frameRxOk = true
  relays : p.bc.relays = [0]
  relay : ∃ r, p.bc.subs 0 = .live r ∧ r.clientCh.rxOpen = true ∧ r.bcastCh.rxOpen = true ∧
    r.bcastCh.cap = 1024 ∧ r.bcastCh.queue.length = n

theorem filling_subscribeRun (job : Job) :
    ∃ p, Lts.run Pipeline.step (Pipeline.start job) subscribeRun = some p ∧ Filling 0 p := by
  refine ⟨_, rfl, ?_⟩
  constructor
  case relay => exact ⟨_, rfl, rfl, rfl, rfl, rfl⟩
  all_goals rfl

/-- One more byte is on its way to the broadcaster. -/
theorem Filling.write {n : Nat} (h : Filling n p) (b : UInt8) :
    ∃ p', Lts.run Pipeline.step p (writeRun b) = some p' ∧
      p'.bc = { p.bc with
        frameCh := p.bc.frameCh.push (.frame ⟨(p.output .stdout).kind, [b]⟩) } ∧
      Filling n { p' with bc := p.bc } := by
  cases hrun : Lts.run Pipeline.step p (writeRun b) with
  | none =>
    simp [writeRun, Lts.run, Pipeline.step, Output.step, Output.recv, Tracker.step,
      Tracker.outgoing, Tracker.onOutput, Chan.send, Chan.trySend, Chan.recv, h.pc, h.streamOk,
      h.read, h.notClosed, h.unread, h.out, h.outOpen, h.outCap, h.src, h.srcOpen,
      h.srcCap] at hrun
  | some p' =>
    simp [writeRun, Lts.run, Pipeline.step, Output.step, Output.recv, Tracker.step,
      Tracker.outgoing, Tracker.onOutput, Chan.send, Chan.trySend, Chan.recv, h.pc, h.streamOk,
      h.read, h.notClosed, h.unread, h.out, h.outOpen, h.outCap, h.src, h.srcOpen,
      h.srcCap] at hrun
    subst hrun
    refine ⟨_, rfl, by simp, ?_⟩
    constructor
    case pc => simp [Tracker.loopTop, h.childOk]
    case relay => exact h.relay
    all_goals simp [Tracker.loopTop, h.streamOk, h.childOk, h.src, h.srcOpen, h.srcCap,
      h.frameRxOk, h.relays]

/-- The broadcaster takes it, and the relay has room for it. -/
theorem Filling.fill {n : Nat} (h : Filling n p) (hn : n < 1024) (b : UInt8) :
    ∃ p', Lts.run Pipeline.step p (writeRun b ++ [.bcast .frame]) = some p' ∧
      Filling (n + 1) p' := by
  obtain ⟨p₁, hrun, hbc, hf⟩ := h.write b
  obtain ⟨r, hr, ho, hbo, hcap, hlen⟩ := h.relay
  have hl : r.bcastCh.queue.length < r.bcastCh.cap := by omega
  have haccept : ∀ ev, (p.bc.subs 0).offer ev =
      (true, .live { r with bcastCh := r.bcastCh.push ev }) := by
    intro ev
    simp [hr, Sub.offer, Relay.accept, Chan.trySend, hbo, hl]
  cases hstep : p₁.step (.bcast .frame) with
  | none =>
    simp [Pipeline.step, Broadcaster.step, hbc, h.frameRxOk, Chan.recv, h.src] at hstep
  | some p' =>
    refine ⟨p', Lts.run_snoc_iff.2 ⟨p₁, hrun, hstep⟩, ?_⟩
    simp [Pipeline.step, Broadcaster.step, hbc, h.frameRxOk, Chan.recv, h.src,
      Broadcaster.onFrame, h.relays, Broadcaster.retain, haccept] at hstep
    subst hstep
    exact
      { hf with
        src := rfl
        srcOpen := h.srcOpen
        srcCap := h.srcCap
        frameRxOk := rfl
        relays := rfl
        relay := ⟨_, rfl, ho, hbo, hcap, by simp [hlen]⟩ }

theorem Filling.run (h : Filling 0 p) (b : UInt8) :
    ∀ n, n ≤ 1024 → ∃ p', Lts.run Pipeline.step p (fillRun b n) = some p' ∧ Filling n p' := by
  intro n
  induction n with
  | zero => exact fun _ => ⟨p, rfl, h⟩
  | succ n ih =>
    intro hn
    obtain ⟨p₁, hrun, hf⟩ := ih (by omega)
    obtain ⟨p', hrun', hf'⟩ := hf.fill (by omega) b
    exact ⟨p', Lts.run_append_of hrun hrun', hf'⟩

/-- A child that writes 1025 bytes while the relay of a subscriber takes no step. -/
def overflowRun (b : UInt8) : List Act := subscribeRun ++ (fillRun b 1024 ++ writeRun b)

theorem overflows_overflowRun (job : Job) (b : UInt8) :
    ∃ p, Lts.run Pipeline.step (Pipeline.start job) (overflowRun b) = some p ∧ p.Overflows 0 ∧
      ∃ p', p.step (.bcast .frame) = some p' := by
  obtain ⟨p₁, h₁, hf₁⟩ := filling_subscribeRun job
  obtain ⟨p₂, h₂, hf₂⟩ := hf₁.run b 1024 (Nat.le_refl _)
  obtain ⟨p₃, h₃, hbc, hf₃⟩ := hf₂.write b
  obtain ⟨r, hr, ho, -, -, hlen⟩ := hf₂.relay
  refine ⟨p₃, Lts.run_append_of h₁ (Lts.run_append_of h₂ h₃), ⟨?_, ?_, r, ?_, ho, hlen⟩, ?_⟩
  · simp [hbc, hf₂.src]
  · simp [hbc, hf₂.relays]
  · simp [hbc, hr]
  · simp [Pipeline.step, Broadcaster.step, hbc, hf₂.frameRxOk, Chan.recv, hf₂.src]

theorem listening_of_overflows (h : Inv j₀ acts p) (hover : p.Overflows i)
    (hs : p.step (.bcast .frame) = some p') : Listening j₀ i p' := by
  obtain ⟨hu, hr⟩ := removed_of_overflows h hover hs
  exact ⟨⟨⟨_, h.step hs⟩, hu⟩, hr⟩

/-- Whenever the broadcaster has cut off a relay whose client listens, the client is never told:
it can come to a state where its relay has nothing left to do, and in every such state the relay
is still in its loop and the client waits on an open channel. -/
theorem cutOff_never_told {jobId : JobId} {user : User} {pid : Pid} {now : DateTime}
    (hr : Lts.Reachable Pipeline.step (Pipeline.start (Job.started jobId user pid now)) p)
    (hover : p.Overflows i) (hs : p.step (.bcast .frame) = some p') :
    ¬p'.ToldCutOff i ∧
    ∀ p'' r, Lts.Reachable Pipeline.step p' p'' → p''.bc.subs i = .live r →
      r.clientCh.rxOpen = true → r.clientCh.queue = [] →
      ¬r.Finished ∧ r.pc = .loop ∧ r.clientRecv = none := by
  obtain ⟨acts, hr⟩ := hr
  have h : Inv (Job.started jobId user pid now) acts p := Inv.run rfl hr
  have hl := listening_of_overflows h hover hs
  refine ⟨hl.not_told, fun p'' r hreach hsub ho hq => ?_⟩
  obtain ⟨hpc, -, htx⟩ := hl.1.waits hreach hsub ho
  refine ⟨fun hfin => ?_, hpc, ?_⟩
  · rw [hfin.1] at hpc
    cases hpc
  · simp [Relay.clientRecv, ho, Chan.recv, hq, htx]

theorem cutOff_never_told_overflowRun :
    ∃ p p', Lts.run Pipeline.step (Pipeline.start (Job.started ⟨"job"⟩ ⟨"alice"⟩ ⟨7⟩ ⟨1⟩))
        (overflowRun 104) = some p ∧ p.step (.bcast .frame) = some p' ∧ ¬p'.ToldCutOff 0 := by
  obtain ⟨p, hrun, hover, p', hs⟩ :=
    overflows_overflowRun (Job.started ⟨"job"⟩ ⟨"alice"⟩ ⟨7⟩ ⟨1⟩) 104
  exact ⟨p, p', hrun, hs, (cutOff_never_told ⟨_, hrun⟩ hover hs).1⟩

/-- The subscriber of `overflowRun`, cut off by the 1025th byte, is not told. -/
theorem not_told_overflowRun :
    ∃ p p', Lts.run Pipeline.step (Pipeline.start (Job.started ⟨"job"⟩ ⟨"alice"⟩ ⟨7⟩ ⟨1⟩))
        (overflowRun 104) = some p ∧ p.Overflows 0 ∧ p.step (.bcast .frame) = some p' ∧
      ¬p'.ToldCutOff 0 := by
  obtain ⟨p, hrun, hover, p', hs⟩ :=
    overflows_overflowRun (Job.started ⟨"job"⟩ ⟨"alice"⟩ ⟨7⟩ ⟨1⟩) 104
  have h : Inv (Job.started ⟨"job"⟩ ⟨"alice"⟩ ⟨7⟩ ⟨1⟩) (overflowRun 104) p := Inv.run rfl hrun
  exact ⟨p, p', hrun, hover, hs, (listening_of_overflows h hover hs).not_told⟩

end Pipeline

end JobRunner
