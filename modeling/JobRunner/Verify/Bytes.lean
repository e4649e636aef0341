import JobRunner.Verify.Terminal

/-!
# Every byte of the child

While `wait` runs, the bytes it has sent to the broadcaster, those in its pending send and those
still pending in the output stream are what the child has written, in order (`Bytes.flow`). When
`wait` returns early it drops what is pending, so what was sent stays a prefix; with `EOF` it has
sent everything, and the pipes are closed.
-/

namespace JobRunner

open Mpsc

namespace Output

/-- A stream read to its end, with every result taken, has nothing pending and gets nothing
more. -/
structure Drained (o : Output) : Prop where
  pc : o.pc = .done
  pending : o.pending = []
  closed : o.pipe.closed = true

theorem Drained.step {o o' : Output} (h : o.Drained) {a : Act} (hs : o.step a = some o')
    (ho : o.ch.rxOpen = true) : o'.Drained := by
  obtain ⟨bs, hwritten, hpending, -⟩ := step_pending hs ho
  have hdone : o'.pc = .done := by
    cases a with
    | write bs =>
      obtain ⟨-, rfl⟩ := step_write hs
      exact h.pc
    | close =>
      obtain rfl := step_close hs
      exact h.pc
    | read n => exact absurd (step_read hs).1 (by simp [h.pc])
    | readEof => exact absurd (step_readEof hs).1 (by simp [h.pc])
    | readErr err => exact absurd (step_readErr hs).1 (by simp [h.pc])
    | send =>
      rcases step_send hs with ⟨_, hpc, -, -⟩ | ⟨_, hpc, -, -⟩ | ⟨hpc, -, -⟩
      · simp [h.pc] at hpc
      · simp [h.pc] at hpc
      · exact (hpc h.pc).elim
  have hpipe : o'.pipe = o.pipe := by
    rcases (step_written hs).2 h.closed with he | ⟨n, hpc, -⟩
    · exact he
    · simp [h.pc] at hpc
  have hbs : bs = [] := by
    rw [hpipe] at hwritten
    exact List.self_eq_append_right.1 hwritten
  refine ⟨hdone, ?_, ?_⟩
  · rw [hpending, h.pending, hbs, List.append_nil]
  · rw [hpipe]
    exact h.closed

theorem pending_eq_nil {o : Output} (hq : o.ch.queue = []) (hpc : o.pc = .done)
    (hu : o.pipe.unread = []) : o.pending = [] := by
  rw [pending, hq, hpc, hu]
  rfl

/-- The bytes the tracker takes with one receive. -/
def takenBytes : Option (Except TrackerError Frame) → List UInt8
  | some res => resBytes res
  | none => []

/-- What the tracker takes from the stream leaves the pending bytes at their front. -/
theorem recv_pending {o o' : Output} {ev : Option (Except TrackerError Frame)}
    (h : o.recv = some (ev, o')) :
    o'.pipe = o.pipe ∧ o'.pc = o.pc ∧
    o.pending = takenBytes ev ++ o'.pending := by
  rcases recv_cases h with ⟨res, q, hq, rfl, rfl⟩ | ⟨-, -, rfl, rfl⟩
  · refine ⟨rfl, rfl, ?_⟩
    simp only [pending, takenBytes, hq, List.flatMap_cons, List.append_assoc]
  · exact ⟨rfl, rfl, rfl⟩

end Output

namespace Tracker

/-- The bytes of stream `k` in the send of `wait`, if it is in one. -/
def sending (s : Tracker) (k : StreamKind) : List UInt8 :=
  FrameEvent.streamBytes k s.outgoing.toList

theorem sending_eq_nil {s : Tracker} (h : ∀ f, s.pc ≠ .sendFrame f) (k : StreamKind) :
    s.sending k = [] := by
  unfold sending outgoing
  split
  · next f hpc => exact (h f hpc).elim
  · cases s.loopErr <;> rfl
  · rfl

theorem sending_frame {s : Tracker} {f : Frame} (h : s.pc = .sendFrame f) (k : StreamKind) :
    s.sending k = if f.kind = k then f.bs else [] := by
  simp [sending, outgoing, h, FrameEvent.bytes]

theorem sending_loopTop (s : Tracker) (k : StreamKind) : s.loopTop.sending k = [] := by
  apply sending_eq_nil
  intro f hpc
  rcases loopTop_pc s with hsel | ⟨hlast, -⟩
  · rw [hsel] at hpc
    cases hpc
  · rw [hlast] at hpc
    cases hpc

end Tracker

namespace Pipeline

/-- Where the bytes of the child are. -/
structure Bytes (p : Pipeline) : Prop where
  flow : p.trk.pc ≠ .returned → ∀ k,
    FrameEvent.streamBytes k p.bc.sent ++ p.trk.sending k ++ (p.output k).pending =
      (p.output k).pipe.written
  part : ∀ k, FrameEvent.streamBytes k p.bc.sent <+: (p.output k).pipe.written
  drained : p.trk.pc ≠ .returned → ∀ k, p.trk.streamOk k = false → (p.output k).Drained
  complete : .eof ∈ p.bc.sent → ∀ k,
    FrameEvent.streamBytes k p.bc.sent = (p.output k).pipe.written ∧
      (p.output k).pipe.closed = true

namespace Bytes

variable {j₀ : Job} {acts : List Act} {p p' : Pipeline}

theorem start (job : Job) : Bytes (Pipeline.start job) where
  flow _ _ := rfl
  part _ := List.prefix_rfl
  drained _ k hk := by cases hk
  complete h := by cases h

/-- A step that leaves the streams alone, sends nothing and takes nothing from them. -/
theorem of_quiet (h : p.Bytes) (hout : p'.output = p.output) (hsent : p'.bc.sent = p.bc.sent)
    (hret : p'.trk.pc ≠ .returned → p.trk.pc ≠ .returned)
    (hsending : p'.trk.pc ≠ .returned → ∀ k, p'.trk.sending k = p.trk.sending k)
    (hok : p'.trk.streamOk = p.trk.streamOk) : p'.Bytes where
  flow hpc k := by
    rw [hout, hsent, hsending hpc]
    exact h.flow (hret hpc) k
  part k := by
    rw [hout, hsent]
    exact h.part k
  drained hpc k hk := by
    rw [hout]
    rw [hok] at hk
    exact h.drained (hret hpc) k hk
  complete heof k := by
    rw [hsent] at heof ⊢
    rw [hout]
    exact h.complete heof k

theorem output (hi : Inv j₀ acts p) (h : p.Bytes) {k : StreamKind} {a : Output.Act}
    (hs : p.step (.output k a) = some p') : p'.Bytes := by
  obtain ⟨o, ho, rfl⟩ := step_output hs
  obtain ⟨hmono, hclosed⟩ := Output.step_written ho
  constructor
  · intro hpc k'
    have hflow := h.flow hpc k'
    by_cases hk : k' = k
    · subst hk
      obtain ⟨bs, hw, hp, -⟩ := Output.step_pending ho ((hi.rx k').2 hpc)
      simp only [Function.update_self]
      rw [hw, hp, ← List.append_assoc, hflow]
    · simpa [hk] using hflow
  · apply (Function.forall_update_iff p.output fun k' o =>
      FrameEvent.streamBytes k' p.bc.sent <+: o.pipe.written).2
    exact ⟨(h.part k).trans hmono, fun k' _ => h.part k'⟩
  · intro hpc k' hk'
    by_cases hk : k' = k
    · subst hk
      simpa using (h.drained hpc k' hk').step ho ((hi.rx k').2 hpc)
    · simpa [hk] using h.drained hpc k' hk'
  · intro heof k'
    obtain ⟨hw, hc⟩ := h.complete heof k'
    by_cases hk : k' = k
    · subst hk
      simp only [Function.update_self]
      rcases hclosed hc with he | ⟨n, hpc, rfl⟩
      · rw [he]
        exact ⟨hw, hc⟩
      · obtain ⟨-, -, -, -, rfl⟩ := Output.step_read ho
        exact ⟨hw, hc⟩
    · simpa [hk] using And.intro hw hc

/-- What `wait` takes from a stream is what it sends next. -/
theorem sending_onOutput (hi : Inv j₀ acts p) {k : StreamKind}
    {ev : Option (Except TrackerError Frame)} {o : Output}
    (ho : (p.output k).recv = some (ev, o)) : ∀ k', (p.trk.onOutput k ev).sending k' ++
      (Function.update p.output k o k').pending = (p.output k').pending := by
  obtain ⟨-, -, hpend⟩ := Output.recv_pending ho
  intro k'
  cases ev with
  | none =>
    rw [Tracker.onOutput, Tracker.sending_loopTop, List.nil_append]
    by_cases hk : k' = k
    · subst hk
      simpa [Output.takenBytes] using hpend.symm
    · simp [hk]
  | some res =>
    cases res with
    | error e =>
      rw [Tracker.sending_eq_nil (by simp [Tracker.onOutput, Tracker.breakErr]), List.nil_append]
      by_cases hk : k' = k
      · subst hk
        simpa [Output.takenBytes, Output.resBytes] using hpend.symm
      · simp [hk]
    | ok f =>
      have hf : f.kind = k := by
        rcases Output.recv_cases ho with ⟨res, q, hq, hres, -⟩ | ⟨-, -, hres, -⟩
        · obtain rfl := Option.some.inj hres
          exact (hi.out k).frames f (.inl (by rw [hq]; exact List.mem_cons_self))
        · cases hres
      rw [Tracker.sending_frame (by rfl : (p.trk.onOutput k (some (.ok f))).pc = .sendFrame f)]
      by_cases hk : k' = k
      · subst hk
        simpa [hf, Output.takenBytes, Output.resBytes] using hpend.symm
      · have hne : f.kind ≠ k' := by
          rw [hf]
          exact Ne.symm hk
        simp [hk, hne]

theorem recvOutput (hi : Inv j₀ acts p) (h : p.Bytes) {k : StreamKind}
    (hs : p.step (.recvOutput k) = some p') : p'.Bytes := by
  have hi' : Inv j₀ (acts ++ [.recvOutput k]) p' := hi.recvOutput hs
  obtain ⟨ev, o, trk, ho, ht, rfl⟩ := step_recvOutput hs
  obtain ⟨hpc, hok, rfl⟩ := Tracker.step_output ht
  have hnret : p.trk.pc ≠ .returned := by simp [hpc]
  obtain ⟨hpipe, -, -⟩ := Output.recv_pending ho
  have hidle : ∀ k', p.trk.sending k' = [] := Tracker.sending_eq_nil (by simp [hpc])
  have hmove := sending_onOutput hi ho
  have hwritten : ∀ k', (Function.update p.output k o k').pipe = (p.output k').pipe :=
    (Function.forall_update_iff p.output fun k' o => o.pipe = (p.output k').pipe).2
      ⟨hpipe, fun _ _ => rfl⟩
  constructor
  · intro _ k'
    have hflow := h.flow hnret k'
    rw [hidle, List.append_nil] at hflow
    rw [hwritten, List.append_assoc, hmove, hflow]
  · intro k'
    rw [hwritten]
    exact h.part k'
  · intro _ k' hk'
    have heof : .readEof ∈ outActs k' (acts ++ [.recvOutput k]) := hi'.ended k' hk'
    obtain ⟨hdone, hunread, hclosed, -, -⟩ := (hi'.hist k').eof heof
    refine ⟨hdone, ?_, hclosed⟩
    by_cases hold : p.trk.streamOk k' = false
    · have hp := (h.drained hnret k' hold).pending
      rw [← hmove] at hp
      exact (List.append_eq_nil_iff.1 hp).2
    · -- this is the stream that has just ended
      have hq : (Function.update p.output k o k').ch.queue = [] := by
        cases ev with
        | none =>
          have hkk : k' = k := by
            by_contra hne
            apply hold
            simpa [Tracker.onOutput, Tracker.loopTop, hne] using hk'
          subst hkk
          rcases Output.recv_cases ho with ⟨res, q, -, hres, -⟩ | ⟨hq, -, -, rfl⟩
          · cases hres
          · simpa using hq
        | some res =>
          refine (hold ?_).elim
          cases res <;> exact hk'
      exact Output.pending_eq_nil hq hdone hunread
  · intro heof k'
    rw [hwritten]
    exact h.complete heof k'

theorem send (hi : Inv j₀ acts p) (ht : p.Terminal) (h : p.Bytes) (hs : p.step .send = some p') :
    p'.Bytes := by
  obtain ⟨ev, trk, hev, hstep, -, -, hnret, rfl⟩ := hi.send_cases hs
  have hsent : ({ p.bc with frameCh := p.bc.frameCh.push ev } : Broadcaster).sent =
      p.bc.sent ++ [ev] := by
    simp [Broadcaster.sent]
  have hbytes : ∀ k, FrameEvent.streamBytes k (p.bc.sent ++ [ev]) =
      FrameEvent.streamBytes k p.bc.sent ++ p.trk.sending k := by
    intro k
    rw [FrameEvent.streamBytes_append, Tracker.sending, hev]
    rfl
  have hrest : (∀ k, trk.sending k = []) ∧ trk.streamOk = p.trk.streamOk := by
    rcases Tracker.step_sent hstep with ⟨f, -, -, rfl⟩ | ⟨f, -, hf, -⟩ | ⟨-, rfl⟩
    · exact ⟨Tracker.sending_loopTop _, rfl⟩
    · cases hf
    · exact ⟨Tracker.sending_eq_nil (by simp), rfl⟩
  have hflow : ∀ k, FrameEvent.streamBytes k (p.bc.sent ++ [ev]) ++ trk.sending k ++
      (p.output k).pending = (p.output k).pipe.written := by
    intro k
    rw [hrest.1, List.append_nil, hbytes]
    exact h.flow hnret k
  constructor
  · intro _ k
    rw [hsent]
    exact hflow k
  · intro k
    have hf := hflow k
    rw [List.append_assoc] at hf
    rw [hsent, ← hf]
    exact List.prefix_append _ _
  · intro _ k hk
    rw [hrest.2] at hk
    exact h.drained hnret k hk
  · intro heof k
    rw [hsent] at heof ⊢
    have hlast : p.trk.pc = .sendLast ∧ p.trk.loopErr = none := by
      rcases List.mem_append.1 heof with heof | heof
      · -- nothing is sent behind a terminal event
        obtain ⟨fs, hfs, hfsent⟩ := ht
        have hend : p.trk.ending = [] := by
          refine Tracker.ending_eq_nil (fun hpc => ?_) hnret
          simp [Tracker.outgoing, hpc] at hev
        rw [hfsent, hend, List.append_nil] at heof
        cases hfs _ heof
      · obtain rfl := List.mem_singleton.1 heof
        exact Tracker.outgoing_eof hev
    have hdrained := h.drained hnret k
      ((hi.record.ended (by rw [hlast.1]; rfl) hlast.2).2 k)
    have hf := hflow k
    rw [hrest.1, hdrained.pending, List.append_nil, List.append_nil] at hf
    exact ⟨hf, hdrained.closed⟩

theorem setRes (h : p.Bytes) (hs : p.step .setRes = some p') : p'.Bytes := by
  obtain ⟨trk, ht, rfl⟩ := step_setRes hs
  obtain ⟨hpc, rfl⟩ := Tracker.step_setRes ht
  exact
    { flow := fun hc => (hc rfl).elim
      part := h.part
      drained := fun hc => (hc rfl).elim
      complete := h.complete }

theorem internal (h : p.Bytes) {trk : Tracker} {ev : Tracker.Ev} (ht : p.trk.step ev = some trk)
    (hout : ∀ k res, ev ≠ .output k res) (hsent : ∀ ok, ev ≠ .sent ok) (hset : ev ≠ .setRes)
    (ch : Chan KillRequest) : Bytes { p with trk, killCh := ch } := by
  obtain ⟨hin, hidle, hidle', -, -, hok, -⟩ := Tracker.step_internal ht hout hsent hset
  have hnret : p.trk.pc ≠ .returned := by
    intro hpc
    rw [hpc] at hin
    cases hin
  refine h.of_quiet rfl rfl (fun _ => hnret) (fun _ k => ?_) hok
  have hnone : p.trk.sending k = [] := by
    rw [Tracker.sending, hidle]
    rfl
  rw [hnone]
  rcases hidle' with hpc | hidle'
  · exact Tracker.sending_eq_nil (by simp [hpc]) k
  · change FrameEvent.streamBytes k trk.outgoing.toList = []
    rw [hidle']
    rfl

theorem step (hi : Inv j₀ acts p) (ht : p.Terminal) (h : p.Bytes) {a : Act}
    (hs : p.step a = some p') : p'.Bytes := by
  cases a with
  | output k a => exact h.output hi hs
  | recvOutput k => exact h.recvOutput hi hs
  | send => exact h.send hi ht hs
  | recvKill =>
    obtain ⟨req, ch, trk, -, hk, rfl⟩ := step_recvKill hs
    exact h.internal hk (by simp) (by simp) (by simp) ch
  | killRes res now =>
    obtain ⟨req, trk, -, hk, rfl⟩ := step_killRes hs
    exact h.internal hk (by simp) (by simp) (by simp) p.killCh
  | exit status now =>
    obtain ⟨trk, hk, rfl⟩ := step_exit hs
    exact h.internal hk (by simp) (by simp) (by simp) p.killCh
  | setRes => exact h.setRes hs
  | kill c a =>
    obtain ⟨call, ch, rfl, -⟩ := step_kill hs
    exact h.of_quiet rfl rfl id (fun _ _ => rfl) rfl
  | bcast a =>
    obtain ⟨bc, hb, rfl⟩ := step_bcast hs
    exact h.of_quiet rfl (Broadcaster.source_of_act hi.bc hb).1 id (fun _ _ => rfl) rfl

end Bytes

/-- All invariants of a reachable job. -/
structure Good (j₀ : Job) (acts : List Act) (p : Pipeline) : Prop where
  inv : Inv j₀ acts p
  terminal : p.Terminal
  bytes : p.Bytes

namespace Good

variable {j₀ : Job} {acts : List Act} {p p' : Pipeline}

theorem start (hend : j₀.endedAt = none) : Good j₀ [] (Pipeline.start j₀) where
  inv := .start hend
  terminal := Terminal.run hend (Lts.run_nil _)
  bytes := .start j₀

theorem step (h : Good j₀ acts p) {a : Act} (hs : p.step a = some p') :
    Good j₀ (acts ++ [a]) p' where
  inv := h.inv.step hs
  terminal := h.terminal.step h.inv hs
  bytes := h.bytes.step h.inv h.terminal hs

/-- What a client has received of a stream is the beginning of it. -/
theorem got_prefix (h : Good j₀ acts p) {i : SubId} {r : Relay} (hr : p.bc.subs i = .live r)
    (k : StreamKind) : FrameEvent.streamBytes k r.got <+: (p.output k).pipe.written := by
  have hgot : r.got <+: p.bc.sent := (h.inv.bc.live hr).2.got.trans (List.prefix_append _ _)
  exact (FrameEvent.streamBytes_mono hgot).trans (h.bytes.part k)

/-- A client that has received `EOF` has received all of both streams. -/
theorem got_complete (h : Good j₀ acts p) {i : SubId} {r : Relay} (hr : p.bc.subs i = .live r)
    (heof : .eof ∈ r.got) (k : StreamKind) :
    FrameEvent.streamBytes k r.got = (p.output k).pipe.written ∧
    (p.output k).pipe.closed = true := by
  have hsent : r.got = p.bc.sent := by
    obtain ⟨fs, hfs, hs⟩ := h.terminal
    have hgot : r.got <+: fs ++ p.trk.ending :=
      hs ▸ (h.inv.bc.live hr).2.got.trans (List.prefix_append _ _)
    rcases p.trk.ending_cases with he | ⟨-, he⟩
    · rw [he, List.append_nil] at hgot
      cases hfs.of_prefix hgot _ heof
    · rw [he] at hgot
      rcases hfs.prefix_snoc hgot with hf | hf
      · cases hf _ heof
      · rw [hs, he]
        exact hf
  rw [hsent]
  exact h.bytes.complete (hsent ▸ heof) k

end Good

end Pipeline

end JobRunner
