import JobRunner.Verify.Subscribers
import JobRunner.Verify.CutOff
import JobRunner.Verify.Requests

/-!
# Does the log pipeline wind down?

`FrameBroadcaster::bcast` keeps its `self`, and with it a handle on `req_tx`; `FrameRelay::relay`
keeps its `self`, and with it a handle on `bcast_tx`. So each waits on a channel that it keeps open
itself: when everything around them is gone, the broadcaster is still in its loop and so is the
relay of every client that has read its log to the end (`never_winds_down`).
-/

namespace JobRunner

open Lts Mpsc

namespace Relay

/-- The relay has handed over everything and is in its loop. -/
structure Spent (r : Relay) : Prop where
  pc : r.pc = .loop
  toSend : r.toSend = none
  frames : r.frames = []
  backlog : r.bcastCh.queue = []

/-- What waits to be sent behind the whole history is nothing. -/
theorem spent_of_open {reg : Bool} {h : List FrameEvent} {r : Relay} (hi : Inv reg r)
    (hf : Flow reg h r) (ho : r.clientCh.rxOpen = true) (hgot : r.got = h) : Spent r := by
  have hseen : r.seen <+: r.got := hgot ▸ hf.seen ho
  have hlen := hseen.length_le
  simp only [seen, List.length_append] at hlen
  refine ⟨hi.pc_of_open ho, ?_, ?_, ?_⟩
  · cases hto : r.toSend with
    | none => rfl
    | some ev =>
      rw [hto, Option.toList_some, List.length_singleton] at hlen
      omega
  · apply List.eq_nil_of_length_eq_zero
    omega
  · apply List.eq_nil_of_length_eq_zero
    omega

theorem Spent.dropHandle {r : Relay} (h : Spent r) : Spent r.dropHandle :=
  ⟨h.pc, h.toSend, h.frames, h.backlog⟩

/-- A spent relay takes no step of its own, and is spent whatever its client does. -/
theorem Spent.step {reg : Bool} {r r' : Relay} (h : Spent r) (hi : Inv reg r) {a : Act}
    (hs : r.step a = some r') : Spent r' := by
  cases a with
  | recv =>
    obtain ⟨-, ⟨ev, q, hq, -⟩ | ⟨-, hz, -⟩⟩ := step_recv hs
    · rw [h.backlog] at hq
      cases hq
    · -- the task's own handle
      have hh := hi.handles
      rw [hz, if_neg (by simp [h.pc])] at hh
      omega
  | send =>
    obtain ⟨-, ev, hto, -⟩ := step_send hs
    rw [h.toSend] at hto
    cases hto
  | drain => exact absurd (step_drain hs) hi.notDrain
  | clientRecv =>
    obtain ⟨o, hr⟩ := step_clientRecv hs
    obtain ⟨-, ⟨ev, q, -, -, rfl⟩ | ⟨-, -, -, rfl⟩⟩ := clientRecv_cases hr
    · exact ⟨h.pc, h.toSend, h.frames, h.backlog⟩
    · exact ⟨h.pc, h.toSend, h.frames, h.backlog⟩
  | clientDrop =>
    obtain ⟨-, rfl⟩ := step_clientDrop hs
    exact ⟨h.pc, h.toSend, h.frames, h.backlog⟩

/-- A client that is gone receives nothing. -/
theorem got_of_closed {r r' : Relay} {a : Act} (hs : r.step a = some r')
    (ho : r'.clientCh.rxOpen = false) : r'.got = r.got := by
  cases a with
  | recv =>
    obtain ⟨-, ⟨ev, q, -, rfl⟩ | ⟨-, -, rfl⟩⟩ := step_recv hs
    · exact loopTop_got _
    · rfl
  | send =>
    obtain ⟨-, ev, -, ⟨-, -, rfl⟩ | ⟨-, rfl⟩⟩ := step_send hs
    · exact loopTop_got _
    · rfl
  | drain =>
    simp only [step, Option.ite_none_right_eq_some] at hs
    obtain ⟨-, hs⟩ := hs
    split at hs
    · cases hs
      rfl
    · split at hs
      · cases hs
      · cases hs
        rfl
  | clientRecv =>
    obtain ⟨o, hr⟩ := step_clientRecv hs
    obtain ⟨ho', ⟨ev, q, -, -, rfl⟩ | ⟨-, -, -, rfl⟩⟩ := clientRecv_cases hr
    · exact absurd (ho.symm.trans ho') Bool.false_ne_true
    · rfl
  | clientDrop =>
    obtain ⟨-, rfl⟩ := step_clientDrop hs
    rfl

theorem offer_got {r r' : Relay} {ev : FrameEvent} (h : ((Sub.live r).offer ev).2 = .live r') :
    r'.got = r.got := by
  rcases r.accept_cases ev with ⟨-, -, he⟩ | ⟨-, he⟩
  · simp only [Sub.offer, he, Sub.live.injEq] at h
    rw [← h]
  · simp only [Sub.offer, he, Sub.live.injEq] at h
    rw [← h]
    rfl

end Relay

namespace Pipeline

variable {j₀ : Job} {acts : List Act} {p p' : Pipeline}

/-- The relays of the clients that have read their log to the end are spent. -/
def AllSpent (p : Pipeline) : Prop :=
  ∀ i r, p.bc.subs i = .live r → r.ReachedTerminal → r.Spent

/-- A client that has read its log to the end and listens has a spent relay. -/
theorem spent_of_listening (hi : Inv j₀ acts p) (ht : p.Terminal) {i : SubId} {r : Relay}
    (hr : p.bc.subs i = .live r) (hend : r.ReachedTerminal) (ho : r.clientCh.rxOpen = true) :
    r.Spent := by
  obtain ⟨hinv, hflow⟩ := hi.bc.live hr
  exact Relay.spent_of_open hinv hflow ho (got_eq_frames hi ht hr hend)

/-- The broadcaster handles an event, or the end, of its source. -/
theorem AllSpent.frame {acts' : List Act} (h : p.AllSpent) (hi : Inv j₀ acts p)
    (hi' : Inv j₀ acts' p') (ht' : p'.Terminal) (hs : p.bc.step .frame = some p'.bc) :
    p'.AllSpent := by
  intro i r' hr' hend
  obtain ⟨-, ⟨ev, q, -, he⟩ | ⟨-, -, he⟩⟩ := Broadcaster.step_frame hs
  · -- no event follows one that ends the log
    have hgot' : r'.got = p'.bc.frames := got_eq_frames hi' ht' hr' hend
    have hframes : p'.bc.frames = p.bc.frames ++ [ev] := by rw [he]; rfl
    have hgot : r'.got <+: p.bc.frames := by
      rw [he, (Broadcaster.onFrame_sub hi.bc _ ev i).2] at hr'
      split at hr'
      · next hmem =>
        obtain ⟨r, hr⟩ := hi.bc.mem_relays hmem
        rw [hr] at hr'
        rw [Relay.offer_got hr']
        exact (hi.bc.live hr).2.got
      · exact (hi.bc.live hr').2.got
    have hlen := hgot.length_le
    rw [hgot', hframes, List.length_append, List.length_singleton] at hlen
    omega
  · rw [he, (Broadcaster.onFrame_end_sub hi.bc _ i).2.2.2] at hr'
    split at hr'
    · next hmem =>
      obtain ⟨r, hr⟩ := hi.bc.mem_relays hmem
      rw [hr] at hr'
      obtain rfl : r.dropHandle = r' := Sub.live.inj hr'
      exact (h i r hr hend).dropHandle
    · exact h i r' hr' hend

theorem AllSpent.step (h : p.AllSpent) (hi : Inv j₀ acts p) (ht : p.Terminal) {a : Act}
    (hs : p.step a = some p') : p'.AllSpent := by
  have hi' := hi.step hs
  have ht' := ht.step hi hs
  rcases bc_of_step hi hs with he | ⟨b, hb⟩
  · intro i r hr hend
    rw [he] at hr
    exact h i r hr hend
  by_cases hframe : b = .act .frame
  · subst hframe
    exact h.frame hi hi' ht' hb
  intro i r' hr' hend
  by_cases hreq : b = .act (.req i)
  · -- a new relay has handed over nothing
    subst hreq
    have hnew : r'.got = [] := by
      obtain ⟨-, q, -, ⟨-, -, he⟩ | ⟨-, -, he⟩ | ⟨-, he⟩⟩ := Broadcaster.step_req hb
      · simp only [he, Function.update_self, Sub.live.injEq] at hr'
        rw [← hr', Relay.start, Relay.loopTop_got]
      · simp only [he, Function.update_self, Sub.live.injEq] at hr'
        rw [← hr']
        exact Relay.loopTop_got _
      · simp only [he, Function.update_self, reduceCtorEq] at hr'
    obtain ⟨ev, hev, -⟩ := hend
    rw [hnew] at hev
    cases hev
  cases ho : r'.clientCh.rxOpen with
  | true => exact spent_of_listening hi' ht' hr' hend ho
  | false =>
    obtain ⟨-, -, -, hmove⟩ := Broadcaster.move_of_step hi.bc hb hframe hreq
    generalize hsub : p.bc.subs i = sub at hmove
    generalize hsub' : p'.bc.subs i = sub' at hmove
    rw [hsub'] at hr'
    cases hmove with
    | same => exact h i r' (hsub.trans hr') hend
    | idle _ hn => exact absurd hr' (hn r')
    | @own r _ a' _ hstep =>
      obtain rfl := Sub.live.inj hr'
      obtain ⟨hinv, -⟩ := hi.bc.live hsub
      apply (h i r hsub ?_).step hinv hstep
      obtain ⟨ev, hev, hterm⟩ := hend
      rw [Relay.got_of_closed hstep ho] at hev
      exact ⟨ev, hev, hterm⟩

theorem AllSpent.run (hend : j₀.endedAt = none)
    (hr : Lts.run Pipeline.step (Pipeline.start j₀) acts = some p) : p.AllSpent := by
  refine (run_induct (motive := fun acts p => Inv j₀ acts p ∧ p.Terminal ∧ p.AllSpent)
    ⟨.start hend, ⟨[], (fun _ hev => by cases hev), rfl⟩, fun i r hr => by cases hr⟩ ?_ hr).2.2
  rintro acts p a p' - ⟨hi, ht, h⟩ hs
  exact ⟨hi.step hs, ht.step hi hs, h.step hi ht hs⟩

/-! ## At rest -/

/-- The labels that are steps of the job's own tasks, the relays included. What the child, the
operating system, the callers and the clients do is not among them. -/
def Act.ofTask : Act → Bool
  | .output _ (.read _) => true
  | .output _ .readEof => true
  | .output _ .send => true
  | .recvOutput _ => true
  | .send => true
  | .recvKill => true
  | .setRes => true
  | .bcast .frame => true
  | .bcast (.req _) => true
  | .bcast .reqEnd => true
  | .bcast (.relay _ .recv) => true
  | .bcast (.relay _ .send) => true
  | .bcast (.relay _ .drain) => true
  | _ => false

/-- No task can take a step. -/
def Quiescent (p : Pipeline) : Prop := ∀ a, a.ofTask = true → p.step a = none

/-- `wait` has returned, every client has read its log to the end and dropped its receiver, and
nobody else holds the broadcaster. -/
structure Deserted (p : Pipeline) : Prop where
  returned : p.trk.pc = .returned
  clients : ∀ i r, p.bc.subs i = .live r → r.ReachedTerminal ∧ r.clientCh.rxOpen = false
  handle : p.bc.handle = false
  calls : ∀ i, (p.bc.subs i).calling = false

/-- `bcast` and every `relay` have returned. -/
structure WoundDown (p : Pipeline) : Prop where
  bcast : p.bc.frameRxOk = false ∧ p.bc.reqRxOk = false
  relays : ∀ i r, p.bc.subs i = .live r → r.pc = .done

/-- At rest the broadcaster has seen the end of its source. -/
theorem frameRxOk_of_quiescent (hi : Inv j₀ acts p) (hq : p.Quiescent)
    (hret : p.trk.pc = .returned) : p.bc.frameRxOk = false := by
  have hsrc := hi.src
  rw [if_pos hret] at hsrc
  cases hok : p.bc.frameRxOk with
  | false => rfl
  | true =>
    have hstep := hq (.bcast .frame) rfl
    cases hf : p.bc.frameCh.queue with
    | nil => simp [Pipeline.step, Broadcaster.step, hok, Chan.recv, hf, hsrc] at hstep
    | cons ev q => simp [Pipeline.step, Broadcaster.step, hok, Chan.recv, hf] at hstep

/-- At rest no request is left. -/
theorem requests_of_quiescent (hi : Inv j₀ acts p) (hreq : p.bc.Requests) (hq : p.Quiescent)
    (hcalls : ∀ i, (p.bc.subs i).calling = false) : p.bc.reqCh.queue = [] := by
  cases hf : p.bc.reqCh.queue with
  | nil => rfl
  | cons i q =>
    obtain ⟨waiting, hw⟩ := hi.bc.queued i (by rw [hf]; exact List.mem_cons_self)
    have hgone := hcalls i
    rw [hw] at hgone
    change waiting = false at hgone
    subst hgone
    have hstep := hq (.bcast (.req i)) rfl
    simp [Pipeline.step, Broadcaster.step, hreq.rxOk, Chan.recv, hf, Broadcaster.onReq, hw] at hstep

/-- **The log pipeline never winds down.** When it has come to rest with everybody else gone, the
broadcaster waits on a channel whose one sender is its own, and so does every relay. -/
theorem never_winds_down {jobId : JobId} {user : User} {pid : Pid} {now : DateTime}
    (hr : Reachable step (start (Job.started jobId user pid now)) p) (hq : p.Quiescent)
    (hd : p.Deserted) :
    ¬p.WoundDown ∧
    (p.bc.frameRxOk = false ∧ p.bc.reqRxOk = true ∧ p.bc.reqCh.queue = [] ∧
      p.bc.reqCh.senders = 1) ∧
    ∀ i r, p.bc.subs i = .live r →
      r.pc = .loop ∧ r.toSend = none ∧ r.bcastCh.queue = [] ∧ r.bcastCh.senders = 1 := by
  obtain ⟨acts, hr⟩ := hr
  have hi : Inv (Job.started jobId user pid now) acts p := Inv.run rfl hr
  have hspent : p.AllSpent := .run rfl hr
  have hreq : p.bc.Requests := .reachable (reachable_bc (.start rfl) ⟨acts, hr⟩)
  have hframe := frameRxOk_of_quiescent hi hq hd.returned
  refine ⟨fun hw => ?_, ⟨hframe, hreq.rxOk, requests_of_quiescent hi hreq hq hd.calls, ?_⟩,
    fun i r hsub => ?_⟩
  · exact absurd (hw.bcast.2.symm.trans hreq.rxOk) Bool.false_ne_true
  · obtain ⟨calls, -, hmem, hn⟩ := hreq.senders
    have hnone : calls = [] := by
      apply List.eq_nil_iff_forall_not_mem.2
      intro i hm
      rw [hmem, hd.calls i] at hm
      cases hm
    rw [hn, hd.handle, hnone]
    rfl
  · have hsp := hspent i r hsub (hd.clients i r hsub).1
    obtain ⟨hinv, -⟩ := hi.bc.live hsub
    refine ⟨hsp.pc, hsp.toSend, hsp.backlog, ?_⟩
    -- the broadcaster has dropped its handle with the end of the source
    rw [hinv.handles, (hi.bc.drained hframe).1, if_neg (by simp [hsp.pc])]
    simp

/-- A job at rest, read off its parts. -/
theorem quiescent_of (hout : ∀ k, (p.output k).pc = .done) (hret : p.trk.pc = .returned)
    (hframe : p.bc.frameRxOk = false) (hreq : p.bc.reqCh.recv = none)
    (hrelays : ∀ i r, p.bc.subs i = .live r → r.Quiet) : p.Quiescent := by
  have relay : ∀ i b, (∀ r, p.bc.subs i = .live r → r.step b = none) →
      p.step (.bcast (.relay i b)) = none := by
    intro i b hquiet
    cases hsub : p.bc.subs i with
    | live r => simp [Pipeline.step, Broadcaster.step, hsub, hquiet r hsub]
    | _ => simp [Pipeline.step, Broadcaster.step, hsub]
  intro a ha
  unfold Act.ofTask at ha
  split at ha
  · simp [Pipeline.step, Output.step, hout]
  · simp [Pipeline.step, Output.step, hout]
  · simp [Pipeline.step, Output.step, hout]
  · simp [Pipeline.step, Tracker.step, hret]
  · simp [Pipeline.step, Tracker.outgoing, hret]
  · simp [Pipeline.step, Tracker.step, hret]
  · simp [Pipeline.step, Tracker.step, hret]
  · simp [Pipeline.step, Broadcaster.step, hframe]
  · simp [Pipeline.step, Broadcaster.step, hreq]
  · simp [Pipeline.step, Broadcaster.step, hreq]
  · exact relay _ _ fun r hr => (hrelays _ r hr).1
  · exact relay _ _ fun r hr => (hrelays _ r hr).2.1
  · exact relay _ _ fun r hr => (hrelays _ r hr).2.2
  · cases ha

/-- A child that writes nothing exits. When its log is complete a client reads it, and everybody
leaves. -/
def desertedRun : List Act :=
  [.exit (.ok (.exited 0)) ⟨2⟩,
    .output .stdout .close, .output .stdout .readEof, .recvOutput .stdout,
    .output .stderr .close, .output .stderr .readEof, .recvOutput .stderr,
    .send, .setRes, .bcast .frame, .bcast .frame,
    .bcast (.subscribe 0), .bcast (.sendReq 0), .bcast (.req 0),
    .bcast (.relay 0 .send), .bcast (.relay 0 .clientRecv), .bcast (.relay 0 .clientDrop),
    .bcast .dropHandle]

theorem rests_desertedRun : ∃ p,
    Lts.run Pipeline.step (Pipeline.start (Job.started ⟨"job"⟩ ⟨"alice"⟩ ⟨7⟩ ⟨1⟩)) desertedRun =
      some p ∧ p.Quiescent ∧ p.Deserted ∧ p.bc.reqRxOk = true := by
  have hrun : ∃ p r,
      Lts.run Pipeline.step (Pipeline.start (Job.started ⟨"job"⟩ ⟨"alice"⟩ ⟨7⟩ ⟨1⟩)) desertedRun =
        some p ∧ (∀ k, (p.output k).pc = .done) ∧ p.trk.pc = .returned ∧
      p.bc.frameRxOk = false ∧ p.bc.reqRxOk = true ∧ p.bc.reqCh.recv = none ∧
      p.bc.handle = false ∧ p.bc.subs 0 = .live r ∧ (∀ i, i ≠ 0 → p.bc.subs i = .absent) ∧
      r.got = [.eof] ∧ r.clientCh.rxOpen = false ∧ r.Quiet := by
    refine ⟨_, _, rfl, fun k => ?_, rfl, rfl, rfl, rfl, rfl, rfl, fun i hi => ?_, rfl, rfl, rfl,
      rfl, rfl⟩
    · cases k <;> rfl
    · -- the labels of the run are about subscriber 0
      repeat refine (Function.update_of_ne hi ..).trans ?_
      rfl
  obtain ⟨p, r, hr, hout, hret, hframe, hrx, hreq, hhandle, h0, hne, hgot, ho, hquiet⟩ := hrun
  have only : ∀ i r', p.bc.subs i = .live r' → r' = r := by
    intro i r' hr'
    by_cases hi : i = 0
    · rw [hi, h0] at hr'
      exact (Sub.live.inj hr').symm
    · rw [hne i hi] at hr'
      cases hr'
  refine ⟨p, hr, ?_, ⟨hret, fun i r' hr' => ?_, hhandle, fun i => ?_⟩, hrx⟩
  · refine quiescent_of hout hret hframe hreq fun i r' hr' => ?_
    rw [only i r' hr']
    exact hquiet
  · rw [only i r' hr']
    exact ⟨⟨.eof, by rw [hgot]; exact List.mem_singleton_self _, rfl⟩, ho⟩
  · by_cases hi : i = 0
    · rw [hi, h0]
      rfl
    · rw [hne i hi]
      rfl

theorem never_winds_down_desertedRun : ∃ p,
    Lts.run Pipeline.step (Pipeline.start (Job.started ⟨"job"⟩ ⟨"alice"⟩ ⟨7⟩ ⟨1⟩)) desertedRun =
      some p ∧ ¬p.WoundDown := by
  obtain ⟨p, hr, hq, hd, -⟩ := rests_desertedRun
  exact ⟨p, hr, (never_winds_down ⟨_, hr⟩ hq hd).1⟩

/-- At the end of this run the broadcaster has not returned. -/
theorem not_woundDown_desertedRun : ¬∀ p, Reachable Pipeline.step
    (Pipeline.start (Job.started ⟨"job"⟩ ⟨"alice"⟩ ⟨7⟩ ⟨1⟩)) p → p.Quiescent → p.Deserted →
    p.WoundDown := by
  intro h
  obtain ⟨p, hr, hq, hd, hrx⟩ := rests_desertedRun
  have hw := h p ⟨_, hr⟩ hq hd
  exact absurd (hw.bcast.2.symm.trans hrx) Bool.false_ne_true

end Pipeline

end JobRunner
