import JobRunner.Verify.CutOff
import JobRunner.Verify.Bytes

/-!
# Bounds on what is in flight

A frame is the result of one read, of 1 to 1024 bytes, and every channel between a pipe and the
history of the broadcaster is bounded. So while `wait` runs, the bytes it has taken out of a pipe
without their being in the history are those of twenty reads at most (`Pipeline.inFlight_le`): a
child that writes faster than the broadcaster listens is held back by its pipe.
-/

namespace JobRunner

open Mpsc Lts

/-- The size of a frame. -/
def Frame.Sized (frame : Frame) : Prop := 1 ≤ frame.bs.length ∧ frame.bs.length ≤ 1024

/-- The frames among some events have their size. -/
def FrameEvent.AllSized (evs : List FrameEvent) : Prop := ∀ frame, .frame frame ∈ evs → frame.Sized

/-- Pieces of a bounded length. -/
theorem length_flatMap_le {α β : Type*} {f : α → List β} {n : Nat} {l : List α}
    (h : ∀ a ∈ l, (f a).length ≤ n) : (l.flatMap f).length ≤ n * l.length := by
  induction l with
  | nil => simp
  | cons a l ih =>
    have hfirst := h a List.mem_cons_self
    have hrest := ih fun b hb => h b (List.mem_cons_of_mem _ hb)
    rw [List.flatMap_cons, List.length_append, List.length_cons, Nat.mul_succ]
    omega

theorem FrameEvent.length_streamBytes_le (k : StreamKind) {evs : List FrameEvent}
    (h : AllSized evs) : (streamBytes k evs).length ≤ 1024 * evs.length := by
  apply length_flatMap_le
  intro ev hev
  cases ev with
  | frame f =>
    rw [bytes]
    split
    · exact (h f hev).2
    · simp
  | error err => simp [bytes]
  | eof => simp [bytes]

namespace Output

/-- The channel of a stream and the frames on it. -/
structure Bounded (o : Output) : Prop where
  cap : o.ch.cap = 16
  len : o.ch.queue.length ≤ 16
  queued : ∀ frame, .ok frame ∈ o.ch.queue → frame.Sized
  sending : ∀ frame, o.pc = .send frame → frame.Sized

namespace Bounded

variable {o o' : Output}

theorem start (k : StreamKind) : Bounded (Output.start k) where
  cap := rfl
  len := Nat.zero_le _
  queued frame h := by cases h
  sending frame h := by cases h

theorem finish (h : Bounded o) : Bounded o.finish where
  cap := h.cap
  len := h.len
  queued := h.queued
  sending frame hf := by cases hf

theorem push {res : Except TrackerError Frame} (h : Bounded o) (ho : o.ch.rxOpen = true)
    {ch : Chan (Except TrackerError Frame)} (hs : o.ch.send res = some (true, ch))
    (hres : ∀ frame, res = .ok frame → frame.Sized) {pc : ReadPc} (hpc : ∀ f, pc ≠ .send f) :
    Bounded { o with pc, ch } := by
  rcases Chan.send_eq_some_iff.1 hs with ⟨-, -, hlen, rfl⟩ | ⟨-, hclosed, -⟩
  · rw [h.cap] at hlen
    have hlen' : (o.ch.push res).queue.length ≤ 16 := by
      rw [Chan.push_queue, List.length_append, List.length_singleton]
      exact hlen
    refine ⟨h.cap, hlen', fun frame hf => ?_, fun frame hf => absurd hf (hpc _)⟩
    rcases List.mem_append.1 hf with hf | hf
    · exact h.queued frame hf
    · exact hres frame (List.mem_singleton.1 hf).symm
  · rw [ho] at hclosed
    cases hclosed

theorem step (h : Bounded o) {a : Act} (hs : o.step a = some o') : Bounded o' := by
  cases a with
  | write bs =>
    obtain ⟨-, rfl⟩ := step_write hs
    exact { h with }
  | close =>
    obtain rfl := step_close hs
    exact { h with }
  | read n =>
    obtain ⟨-, hn, hle, hlen, rfl⟩ := step_read hs
    refine { h with sending := fun frame hf => ?_ }
    obtain rfl := ReadPc.send.inj hf
    simp only [Frame.Sized, List.length_take]
    omega
  | readEof =>
    obtain ⟨-, -, -, rfl⟩ := step_readEof hs
    exact h.finish
  | readErr err =>
    obtain ⟨-, rfl⟩ := step_readErr hs
    exact { h with sending := fun frame hf => by cases hf }
  | send =>
    simp only [Output.step] at hs
    split at hs
    · next frame hpc =>
      split at hs
      · cases hs
      · next ch hch =>
        cases hs
        have ho : o.ch.rxOpen = true := by
          rcases Chan.send_eq_some_iff.1 hch with ⟨-, ho, -⟩ | ⟨hf, -⟩
          · exact ho
          · cases hf
        refine h.push ho hch (fun f hf => ?_) (by simp)
        obtain rfl := Except.ok.inj hf
        exact h.sending _ hpc
      · cases hs
        exact h.finish
    · next err hpc =>
      split at hs
      · cases hs
      · next ok ch hch =>
        cases hs
        rcases Chan.send_eq_some_iff.1 hch with ⟨rfl, ho, -, -⟩ | ⟨-, -, rfl⟩
        · have hpush : Bounded { o with pc := .read, ch } := h.push ho hch (by simp) (by simp)
          exact hpush.finish
        · exact h.finish
    · cases hs

theorem recv (h : Bounded o) {ev : Option (Except TrackerError Frame)}
    (hr : o.recv = some (ev, o')) : Bounded o' ∧ ∀ frame, ev = some (.ok frame) → frame.Sized := by
  rcases recv_cases hr with ⟨res, q, hq, rfl, rfl⟩ | ⟨-, -, rfl, rfl⟩
  · have hlen := h.len
    rw [hq, List.length_cons] at hlen
    refine ⟨⟨h.cap, Nat.le_of_succ_le hlen, fun frame hf => h.queued frame ?_, h.sending⟩,
      fun frame hf => ?_⟩
    · rw [hq]
      exact List.mem_cons_of_mem _ hf
    · apply h.queued frame
      rw [hq, Option.some.inj hf]
      exact List.mem_cons_self
  · exact ⟨h, fun frame hf => by cases hf⟩

theorem dropRx (h : Bounded o) : Bounded o.dropRx where
  cap := h.cap
  len := Nat.zero_le _
  queued frame hf := by cases hf
  sending := h.sending

/-- What a stream holds between its pipe and the tracker. -/
theorem length_pending_le (h : Bounded o) :
    o.pending.length ≤ o.pipe.unread.length + 17 * 1024 := by
  have hq : (o.ch.queue.flatMap resBytes).length ≤ 1024 * o.ch.queue.length := by
    apply length_flatMap_le
    intro res hres
    cases res with
    | ok frame => exact (h.queued frame hres).2
    | error err => simp [resBytes]
  have hsending : (ReadPc.bytes o.pc).length ≤ 1024 := by
    cases hpc : o.pc with
    | send frame => exact (h.sending frame hpc).2
    | _ => simp [ReadPc.bytes]
  have hlen := h.len
  simp only [pending, List.length_append]
  omega

end Bounded

end Output

namespace Pipeline

variable {j₀ : Job} {acts : List Act} {p p' : Pipeline} {jobId : JobId} {user : User} {pid : Pid}
  {now : DateTime}

/-- The channels of the job and the frames on them and in its history. -/
structure Bounded (p : Pipeline) : Prop where
  out : ∀ k, (p.output k).Bounded
  sending : ∀ frame, p.trk.pc = .sendFrame frame → frame.Sized
  sent : FrameEvent.AllSized p.bc.sent

namespace Bounded

theorem start (job : Job) : Bounded (Pipeline.start job) where
  out k := .start k
  sending frame h := by cases h
  sent frame h := by cases h

theorem internal (h : Bounded p) {trk : Tracker} {ev : Tracker.Ev}
    (ht : p.trk.step ev = some trk) (hout : ∀ k res, ev ≠ .output k res)
    (hsent : ∀ ok, ev ≠ .sent ok) (hset : ev ≠ .setRes) (ch : Chan KillRequest) :
    Bounded { p with trk, killCh := ch } := by
  obtain ⟨-, -, hpc, -⟩ := Tracker.step_internal ht hout hsent hset
  refine { h with sending := fun frame hf => ?_ }
  rcases hpc with hlast | hnone
  · cases hf.symm.trans hlast
  · simp [Tracker.outgoing, show trk.pc = .sendFrame frame from hf] at hnone

/-- Where `wait` is after the top of the loop. -/
theorem not_sending_loopTop (s : Tracker) (frame : Frame) : s.loopTop.pc ≠ .sendFrame frame := by
  rcases Tracker.loopTop_pc s with hpc | ⟨hpc, -⟩ <;> simp [hpc]

theorem recvOutput (h : Bounded p) {k : StreamKind} (hs : p.step (.recvOutput k) = some p') :
    Bounded p' := by
  obtain ⟨ev, o, trk, ho, ht, rfl⟩ := step_recvOutput hs
  obtain ⟨hpc, -, rfl⟩ := Tracker.step_output ht
  obtain ⟨hb, hev⟩ := (h.out k).recv ho
  refine ⟨?_, fun frame hf => ?_, h.sent⟩
  · apply (Function.forall_update_iff p.output fun _ o => o.Bounded).2
    exact ⟨hb, fun k' _ => h.out k'⟩
  · match ev with
    | none => exact absurd hf (not_sending_loopTop _ frame)
    | some (.ok f) =>
      obtain rfl : f = frame := WaitPc.sendFrame.inj hf
      exact hev f rfl
    | some (.error err) => cases hf

theorem send (hi : Inv j₀ acts p) (h : Bounded p) (hs : p.step .send = some p') : Bounded p' := by
  obtain ⟨ev, trk, hev, ht, -, -, -, rfl⟩ := hi.send_cases hs
  refine ⟨h.out, fun frame hf => ?_, fun frame hf => ?_⟩
  · rcases Tracker.step_sent ht with ⟨f, -, -, rfl⟩ | ⟨f, -, hfalse, -⟩ | ⟨-, rfl⟩
    · exact absurd hf (not_sending_loopTop _ frame)
    · cases hfalse
    · cases hf
  · rw [Broadcaster.sent, Chan.push_queue, ← List.append_assoc] at hf
    rcases List.mem_append.1 hf with hf | hf
    · exact h.sent frame hf
    · obtain rfl := List.mem_singleton.1 hf
      apply h.sending frame
      unfold Tracker.outgoing at hev
      split at hev
      · next f hpc => rw [hpc, FrameEvent.frame.inj (Option.some.inj hev)]
      · cases hl : p.trk.loopErr <;> simp [hl] at hev
      · cases hev

theorem step (hi : Inv j₀ acts p) (h : Bounded p) {a : Act} (hs : p.step a = some p') :
    Bounded p' := by
  cases a with
  | output k a =>
    obtain ⟨o, ho, rfl⟩ := step_output hs
    refine { h with out := ?_ }
    apply (Function.forall_update_iff p.output fun _ o => o.Bounded).2
    exact ⟨(h.out k).step ho, fun k' _ => h.out k'⟩
  | recvOutput k => exact h.recvOutput hs
  | send => exact h.send hi hs
  | recvKill =>
    obtain ⟨req, ch, trk, -, ht, rfl⟩ := step_recvKill hs
    exact h.internal ht (by simp) (by simp) (by simp) ch
  | killRes res now =>
    obtain ⟨req, trk, -, ht, rfl⟩ := step_killRes hs
    exact h.internal ht (by simp) (by simp) (by simp) p.killCh
  | exit status now =>
    obtain ⟨trk, ht, rfl⟩ := step_exit hs
    exact h.internal ht (by simp) (by simp) (by simp) p.killCh
  | setRes =>
    obtain ⟨trk, ht, rfl⟩ := step_setRes hs
    obtain ⟨-, rfl⟩ := Tracker.step_setRes ht
    exact ⟨fun k => (h.out k).dropRx, (by simp [release]), h.sent⟩
  | kill c a =>
    obtain ⟨call, ch, rfl, -⟩ := step_kill hs
    exact { h with }
  | bcast a =>
    obtain ⟨bc, hb, rfl⟩ := step_bcast hs
    refine { h with sent := ?_ }
    rw [(Broadcaster.source_of_act hi.bc hb).1]
    exact h.sent

theorem run (hend : j₀.endedAt = none)
    (hr : Lts.run Pipeline.step (Pipeline.start j₀) acts = some p) :
    Good j₀ acts p ∧ Bounded p := by
  refine run_induct (motive := fun acts p => Good j₀ acts p ∧ Bounded p)
    ⟨.start hend, .start j₀⟩ ?_ hr
  rintro acts p a p' - ⟨hg, h⟩ hs
  exact ⟨hg.step hs, h.step hg.inv hs⟩

/-- What has left the pipe is at most 17 reads in the stream, one in `wait` and two in its
channel. -/
theorem inFlight (hg : Good j₀ acts p) (hb : Bounded p) (hpc : p.trk.pc ≠ .returned)
    (k : StreamKind) : (p.output k).pipe.written.length ≤ (p.output k).pipe.unread.length +
      20 * 1024 + (FrameEvent.streamBytes k p.bc.frames).length := by
  have hpending := (hb.out k).length_pending_le
  have hsending : (p.trk.sending k).length ≤ 1024 := by
    by_cases hf : ∃ f, p.trk.pc = .sendFrame f
    · obtain ⟨f, hf⟩ := hf
      rw [Tracker.sending_frame hf]
      split
      · exact (hb.sending f hf).2
      · simp
    · rw [Tracker.sending_eq_nil fun f h => hf ⟨f, h⟩]
      simp
  have hqueue : (FrameEvent.streamBytes k p.bc.frameCh.queue).length ≤ 2 * 1024 := by
    have hqueued : FrameEvent.AllSized p.bc.frameCh.queue :=
      fun frame hf => hb.sent frame (List.mem_append_right _ hf)
    have hle := FrameEvent.length_streamBytes_le k hqueued
    have hlen := hg.inv.bc.srcLen
    omega
  rw [← hg.bytes.flow hpc k, Broadcaster.sent, FrameEvent.streamBytes_append]
  simp only [List.length_append]
  omega

end Bounded

/-- While `wait` runs, at most twenty reads of a stream have left its pipe and not reached the
history. No frame of the history is empty. -/
theorem inFlight_le
    (hr : Lts.run Pipeline.step (Pipeline.start (Job.started jobId user pid now)) acts = some p) :
    (p.trk.pc ≠ .returned → ∀ k, (p.output k).pipe.written.length ≤
      (p.output k).pipe.unread.length + 20 * 1024 +
        (FrameEvent.streamBytes k p.bc.frames).length) ∧
    ∀ frame, .frame frame ∈ p.bc.frames → 1 ≤ frame.bs.length ∧ frame.bs.length ≤ 1024 := by
  obtain ⟨hg, hb⟩ := Bounded.run rfl hr
  refine ⟨fun hpc k => hb.inFlight hg hpc k, fun frame hf => ?_⟩
  exact hb.sent frame (List.mem_append_left _ hf)

theorem inFlight_le_writeRun :
    ∃ p, Lts.run Pipeline.step (Pipeline.start (Job.started ⟨"job"⟩ ⟨"alice"⟩ ⟨7⟩ ⟨1⟩))
        (subscribeRun ++ writeRun 104) = some p ∧
      ∀ k, (p.output k).pipe.written.length ≤ (p.output k).pipe.unread.length + 20 * 1024 +
        (FrameEvent.streamBytes k p.bc.frames).length := by
  obtain ⟨p, hp, hpc⟩ : ∃ p, Lts.run Pipeline.step
      (Pipeline.start (Job.started ⟨"job"⟩ ⟨"alice"⟩ ⟨7⟩ ⟨1⟩)) (subscribeRun ++ writeRun 104) =
        some p ∧ p.trk.pc ≠ .returned :=
    ⟨_, rfl, by decide⟩
  exact ⟨p, hp, (inFlight_le hp).1 hpc⟩

end Pipeline

end JobRunner
