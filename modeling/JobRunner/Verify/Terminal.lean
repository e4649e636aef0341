import JobRunner.Verify.Pipeline

/-!
# The terminal event

What the tracker has sent to the broadcaster is a sequence of frames until `wait` leaves its loop,
and one terminal event behind them from then on (`Terminal.run`). The event is `EOF` only if the
child has been reaped and both reading tasks came to an end of file, so whoever has received `EOF`
finds the job `Exited`.
-/

namespace JobRunner

open Mpsc

/-- A sequence of `Frame` events. -/
def FramesOnly (evs : List FrameEvent) : Prop := ∀ ev ∈ evs, ev.isTerminal = false

theorem FramesOnly.snoc {evs : List FrameEvent} (h : FramesOnly evs) (f : Frame) :
    FramesOnly (evs ++ [.frame f]) := by
  intro ev hev
  rcases List.mem_append.1 hev with hev | hev
  · exact h ev hev
  · obtain rfl := List.mem_singleton.1 hev
    rfl

theorem FramesOnly.of_prefix {evs evs' : List FrameEvent} (h : FramesOnly evs')
    (hp : evs <+: evs') : FramesOnly evs :=
  fun ev hev => h ev (hp.subset hev)

/-- A prefix of frames and one terminal event is frames only, or all of it. -/
theorem FramesOnly.prefix_snoc {evs fs : List FrameEvent} {t : FrameEvent} (h : FramesOnly fs)
    (hp : evs <+: fs ++ [t]) : FramesOnly evs ∨ evs = fs ++ [t] := by
  rcases List.prefix_concat_iff.1 hp with he | hp
  · exact .inr he
  · exact .inl (h.of_prefix hp)

namespace Tracker

/-- The terminal event of `wait`, as its loop has left it. -/
def lastEvent (s : Tracker) : FrameEvent :=
  match s.loopErr with
  | some err => .error err
  | none => .eof

/-- The terminal event, once it has been sent. -/
def ending (s : Tracker) : List FrameEvent :=
  match s.pc with
  | .setRes => [s.lastEvent]
  | .returned => [s.lastEvent]
  | _ => []

theorem lastEvent_isTerminal (s : Tracker) : s.lastEvent.isTerminal = true := by
  unfold lastEvent
  cases s.loopErr <;> rfl

theorem lastEvent_eof_iff {s : Tracker} : s.lastEvent = .eof ↔ s.loopErr = none := by
  unfold lastEvent
  cases s.loopErr <;> simp

theorem outgoing_of_sendLast {s : Tracker} (h : s.pc = .sendLast) :
    s.outgoing = some s.lastEvent := by
  cases he : s.loopErr <;> simp [outgoing, lastEvent, h, he]

/-- `EOF` is sent after the loop, if it has ended without an error. -/
theorem outgoing_eof {s : Tracker} (h : s.outgoing = some .eof) :
    s.pc = .sendLast ∧ s.loopErr = none := by
  have hpc : s.pc = .sendLast := by
    unfold outgoing at h
    split at h
    · cases h
    · next hpc => exact hpc
    · cases h
  rw [outgoing_of_sendLast hpc, Option.some.injEq, lastEvent_eof_iff] at h
  exact ⟨hpc, h⟩

theorem ending_eq_nil {s : Tracker} (h : s.pc ≠ .setRes) (h' : s.pc ≠ .returned) :
    s.ending = [] := by
  unfold ending
  split
  · next hpc => exact (h hpc).elim
  · next hpc => exact (h' hpc).elim
  · rfl

theorem ending_cases (s : Tracker) :
    s.ending = [] ∨ ((s.pc = .setRes ∨ s.pc = .returned) ∧ s.ending = [s.lastEvent]) := by
  unfold ending
  split
  · next hpc => exact .inr ⟨.inl hpc, rfl⟩
  · next hpc => exact .inr ⟨.inr hpc, rfl⟩
  · exact .inl rfl

/-- While `wait` is in its loop it has not sent its terminal event. -/
theorem ending_of_inLoop {s : Tracker} (h : s.pc.inLoop = true) : s.ending = [] :=
  ending_eq_nil (fun hpc => by rw [hpc] at h; cases h) (fun hpc => by rw [hpc] at h; cases h)

theorem ending_loopTop (s : Tracker) : s.loopTop.ending = [] := by
  rcases loopTop_pc s with hsel | ⟨hlast, -⟩
  · exact ending_eq_nil (by simp [hsel]) (by simp [hsel])
  · exact ending_eq_nil (by simp [hlast]) (by simp [hlast])

end Tracker

namespace Pipeline

/-- The tracker has sent frames, and its terminal event last. -/
def Terminal (p : Pipeline) : Prop :=
  ∃ fs, FramesOnly fs ∧ p.bc.sent = fs ++ p.trk.ending

namespace Terminal

variable {j₀ : Job} {acts : List Act} {p p' : Pipeline}

/-- A step that sends nothing, between points before the terminal event. -/
theorem of_quiet (h : p.Terminal) (hsent : p'.bc.sent = p.bc.sent) (he : p.trk.ending = [])
    (he' : p'.trk.ending = []) : p'.Terminal := by
  obtain ⟨fs, hfs, hs⟩ := h
  exact ⟨fs, hfs, by rw [hsent, hs, he, he']⟩

theorem internal (h : p.Terminal) {trk : Tracker} {ev : Tracker.Ev}
    (ht : p.trk.step ev = some trk) (hout : ∀ k res, ev ≠ .output k res)
    (hsent : ∀ ok, ev ≠ .sent ok) (hset : ev ≠ .setRes) (ch : Chan KillRequest) :
    Terminal { p with trk, killCh := ch } := by
  obtain ⟨hin, -, -, hnset, hnret, -⟩ := Tracker.step_internal ht hout hsent hset
  exact h.of_quiet rfl (Tracker.ending_of_inLoop hin) (Tracker.ending_eq_nil hnset hnret)

theorem recvOutput (h : p.Terminal) {k : StreamKind} (hs : p.step (.recvOutput k) = some p') :
    p'.Terminal := by
  obtain ⟨ev, o, trk, -, ht, rfl⟩ := step_recvOutput hs
  obtain ⟨hpc, -, rfl⟩ := Tracker.step_output ht
  refine h.of_quiet rfl (Tracker.ending_of_inLoop (by rw [hpc]; rfl)) ?_
  match ev with
  | none => exact Tracker.ending_loopTop _
  | some (.ok frame) => rfl
  | some (.error e) => rfl

theorem send (hi : Inv j₀ acts p) (h : p.Terminal) (hs : p.step .send = some p') :
    p'.Terminal := by
  obtain ⟨ev, trk, hev, ht, -, -, -, rfl⟩ := hi.send_cases hs
  obtain ⟨fs, hfs, hsent⟩ := h
  have hpush : ({ p.bc with frameCh := p.bc.frameCh.push ev } : Broadcaster).sent =
      p.bc.sent ++ [ev] := by
    simp [Broadcaster.sent]
  rcases Tracker.step_sent ht with ⟨f, hpc, -, rfl⟩ | ⟨f, -, hf, -⟩ | ⟨hpc, rfl⟩
  · obtain rfl : FrameEvent.frame f = ev := by simpa [Tracker.outgoing, hpc] using hev
    rw [Tracker.ending_of_inLoop (by rw [hpc]; rfl), List.append_nil] at hsent
    refine ⟨fs ++ [.frame f], hfs.snoc f, ?_⟩
    rw [hpush, hsent, Tracker.ending_loopTop, List.append_nil]
  · cases hf
  · rw [Tracker.outgoing_of_sendLast hpc] at hev
    have hlast : p.trk.lastEvent = ev := Option.some.inj hev
    rw [Tracker.ending_eq_nil (by simp [hpc]) (by simp [hpc]), List.append_nil] at hsent
    refine ⟨fs, hfs, ?_⟩
    rw [hpush, hsent, ← hlast]
    rfl

theorem step (hi : Inv j₀ acts p) (h : p.Terminal) {a : Act} (hs : p.step a = some p') :
    p'.Terminal := by
  cases a with
  | output k a =>
    obtain ⟨o, -, rfl⟩ := step_output hs
    exact h
  | recvOutput k => exact h.recvOutput hs
  | send => exact h.send hi hs
  | recvKill =>
    obtain ⟨req, ch, trk, -, ht, rfl⟩ := step_recvKill hs
    exact h.internal ht (by simp) (by simp) (by simp) ch
  | killRes res now =>
    obtain ⟨req, trk, -, ht, rfl⟩ := step_killRes hs
    exact h.internal ht (by simp) (by simp) (by simp) p.killCh
  | exit status now =>
    obtain ⟨trk, ht, rfl⟩ := step_exit hs
    exact h.internal ht (by simp) (by simp) (by simp) p.killCh
  | setRes =>
    obtain ⟨trk, ht, rfl⟩ := step_setRes hs
    obtain ⟨hpc, rfl⟩ := Tracker.step_setRes ht
    obtain ⟨fs, hfs, hsent⟩ := h
    refine ⟨fs, hfs, ?_⟩
    have he : p.trk.ending = [p.trk.lastEvent] := by simp only [Tracker.ending, hpc]
    rw [he] at hsent
    exact hsent
  | kill c a =>
    obtain ⟨call, ch, rfl, -⟩ := step_kill hs
    exact h
  | bcast a =>
    obtain ⟨bc, hb, rfl⟩ := step_bcast hs
    obtain ⟨fs, hfs, hsent⟩ := h
    exact ⟨fs, hfs, (Broadcaster.source_of_act hi.bc hb).1.trans hsent⟩

theorem run (hend : j₀.endedAt = none)
    (hr : Lts.run Pipeline.step (Pipeline.start j₀) acts = some p) : p.Terminal := by
  have h : Inv j₀ acts p ∧ p.Terminal :=
    Lts.run_induct (motive := fun acts p => Inv j₀ acts p ∧ p.Terminal)
      ⟨Inv.start hend, [], (fun _ hev => by cases hev), rfl⟩
      (fun _ _ _ _ _ ⟨hi, h⟩ hs => ⟨hi.step hs, h.step hi hs⟩) hr
  exact h.2

end Terminal

section Eof

variable {j₀ : Job} {acts : List Act} {p p' : Pipeline}

/-- The reading task of the stream came to its end of file, and to no read error. -/
def ReadToEof (acts : List Act) (k : StreamKind) : Prop :=
  .output k .readEof ∈ acts ∧ ∀ err, .output k (.readErr err) ∉ acts

theorem readToEof_of_mem (h : Inv j₀ acts p) {k : StreamKind} (hk : .readEof ∈ outActs k acts) :
    ReadToEof acts k :=
  ⟨mem_outActs.1 hk, fun err herr => ((h.hist k).eof hk).2.2.2.2 err (mem_outActs.2 herr)⟩

/-- The loop ends without an error exactly if the child was reaped and both streams were read to
their end. -/
theorem loopErr_none_iff (hrun : j₀.state.isRunning = true) (h : Inv j₀ acts p)
    (hpc : p.trk.pc.inLoop = false) :
    p.trk.loopErr = none ↔ p.trk.job.state.isExited = true ∧ ∀ k, ReadToEof acts k := by
  constructor
  · intro he
    obtain ⟨hchild, hstream⟩ := h.record.ended hpc he
    have hw : p.trk.waited = true := h.record.waited_of_childOk hchild he
    exact ⟨(h.record.exited hw).1, fun k => readToEof_of_mem h (h.ended k (hstream k))⟩
  · rintro ⟨hx, hk⟩
    by_contra he
    rcases h.loopErr he with ⟨k, err, herr⟩ | hw
    · exact (hk k).2 err (mem_outActs.1 herr)
    · rw [(h.record.running hw).1, Tracker.not_exited_of_running hrun] at hx
      cases hx

/-- When `EOF` has been sent, or is being sent, the record is `Exited`. -/
theorem exited_of_eof (hrun : j₀.state.isRunning = true) (h : Inv j₀ acts p) (ht : p.Terminal)
    (heof : .eof ∈ p.bc.sent ∨ p.trk.outgoing = some .eof) : p.trk.job.state.isExited = true := by
  rcases heof with heof | heof
  · obtain ⟨fs, hfs, hsent⟩ := ht
    rw [hsent, List.mem_append] at heof
    rcases heof with heof | heof
    · cases hfs _ heof
    · rcases p.trk.ending_cases with he | ⟨hpc, he⟩
      · rw [he] at heof
        cases heof
      · rw [he, List.mem_singleton] at heof
        have hnone : p.trk.loopErr = none := Tracker.lastEvent_eof_iff.1 heof.symm
        have hin : p.trk.pc.inLoop = false := by rcases hpc with hpc | hpc <;> rw [hpc] <;> rfl
        exact ((loopErr_none_iff hrun h hin).1 hnone).1
  · obtain ⟨hpc, hnone⟩ := Tracker.outgoing_eof heof
    exact ((loopErr_none_iff hrun h (by rw [hpc]; rfl)).1 hnone).1

/-- An event a client has received was sent by the tracker. -/
theorem sent_of_got (h : Inv j₀ acts p) {i : SubId} {r : Relay} (hr : p.bc.subs i = .live r)
    {ev : FrameEvent} (hev : ev ∈ r.got) : ev ∈ p.bc.sent :=
  List.mem_append_left _ ((h.bc.live hr).2.got.subset hev)

/-- The history of the broadcaster is a sequence of frames with at most one terminal event, at its
end; once `wait` has returned and its events are handled there is one, and it is `EOF` exactly if
the exit was recorded and both streams were read to their end. Whoever has `EOF` finds the job
`Exited`. -/
theorem terminal_protocol {jobId : JobId} {user : User} {pid : Pid} {now : DateTime}
    (hr : Lts.run Pipeline.step (Pipeline.start (Job.started jobId user pid now)) acts = some p) :
    (∃ fs, FramesOnly fs ∧
      (p.bc.frames = fs ∨ ∃ t, t.isTerminal = true ∧ p.bc.frames = fs ++ [t])) ∧
    (p.trk.pc = .returned → (p.bc.frameRxOk = false ∨ p.bc.frameCh.queue = []) →
      ∃ fs t, FramesOnly fs ∧ t.isTerminal = true ∧ p.bc.frames = fs ++ [t] ∧
        (t = .eof ↔ p.trk.job.state.isExited = true ∧ ∀ k, ReadToEof acts k)) ∧
    (.eof ∈ p.bc.sent ∨ p.trk.outgoing = some .eof → p.trk.job.state.isExited = true) ∧
    (∀ i r, p.bc.subs i = .live r → .eof ∈ r.got →
      ∀ p', Lts.Reachable Pipeline.step p p' → p'.trk.job.state.isExited = true) := by
  have h : Inv (Job.started jobId user pid now) acts p := Inv.run rfl hr
  have ht : p.Terminal := Terminal.run rfl hr
  have heof := exited_of_eof rfl h ht
  refine ⟨?_, fun hpc hdrained => ?_, heof, fun i r hsub hgot p' hreach => ?_⟩
  · obtain ⟨fs, hfs, hsent⟩ := ht
    have hp : p.bc.frames <+: fs ++ p.trk.ending := hsent ▸ List.prefix_append _ _
    rcases p.trk.ending_cases with he | ⟨-, he⟩
    · rw [he, List.append_nil] at hp
      exact ⟨p.bc.frames, hfs.of_prefix hp, .inl rfl⟩
    · rw [he] at hp
      rcases hfs.prefix_snoc hp with hf | hf
      · exact ⟨p.bc.frames, hf, .inl rfl⟩
      · exact ⟨fs, hfs, .inr ⟨_, p.trk.lastEvent_isTerminal, hf⟩⟩
  · obtain ⟨fs, hfs, hsent⟩ := ht
    have hq : p.bc.frameCh.queue = [] := by
      rcases hdrained with hd | hq
      · exact (h.bc.drained hd).2.2
      · exact hq
    have he : p.trk.ending = [p.trk.lastEvent] := by simp only [Tracker.ending, hpc]
    rw [Broadcaster.sent, hq, List.append_nil, he] at hsent
    refine ⟨fs, p.trk.lastEvent, hfs, p.trk.lastEvent_isTerminal, hsent, ?_⟩
    rw [Tracker.lastEvent_eof_iff]
    exact loopErr_none_iff rfl h (by rw [hpc]; rfl)
  · have hx : p.trk.job.state.isExited = true := heof (.inl (sent_of_got h hsub hgot))
    obtain ⟨-, hlife⟩ := Tracker.lifeCycle_run rfl h.record (reachable_trk hreach)
    rw [hlife.frozen hx]
    exact hx

/-- A child that writes one byte to stdout and exits, with the subscriber `i` reading along. -/
def echoRun (i : SubId) (b : UInt8) : List Act :=
  [.bcast (.subscribe i), .bcast (.sendReq i), .bcast (.req i),
    .output .stdout (.write [b]), .output .stdout (.read 1), .output .stdout .send,
    .recvOutput .stdout, .send, .bcast .frame,
    .bcast (.relay i .recv), .bcast (.relay i .send), .bcast (.relay i .clientRecv),
    .exit (.ok (.exited 0)) ⟨2⟩,
    .output .stdout .close, .output .stdout .readEof, .recvOutput .stdout,
    .output .stderr .close, .output .stderr .readEof, .recvOutput .stderr,
    .send, .setRes, .bcast .frame,
    .bcast (.relay i .recv), .bcast (.relay i .send), .bcast (.relay i .clientRecv)]

theorem terminal_protocol_echoRun :
    ∃ p, Lts.run Pipeline.step (Pipeline.start (Job.started ⟨"job"⟩ ⟨"alice"⟩ ⟨7⟩ ⟨1⟩))
        (echoRun 0 104) = some p ∧
      ∃ fs t, FramesOnly fs ∧ t.isTerminal = true ∧ p.bc.frames = fs ++ [t] ∧
        (t = .eof ↔ p.trk.job.state.isExited = true ∧ ∀ k, ReadToEof (echoRun 0 104) k) :=
  ⟨_, rfl, (terminal_protocol rfl).2.1 rfl (.inr rfl)⟩

end Eof

end Pipeline

end JobRunner
