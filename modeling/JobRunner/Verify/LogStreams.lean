import JobRunner.Store
import JobRunner.Verify.Fidelity

/-!
# Log streams item by item

What a gRPC client has been handed of a log stream is the beginning of what the log of its job
stands for (`logFormat`), item for item; the stream ends for it only after all items of a complete
log. The forwarder's answer to a relay that ends without a terminal event is never given, since a
relay with a client does not end.
-/

namespace JobRunner

open Mpsc

namespace Forwarder

/-- A forwarder's items and the events of its relay. -/
structure Exact (f : Forwarder) (r : Relay) : Prop where
  cap : f.ch.cap = 1
  items : f.ch.rxOpen = true → f.made = logFormat.items r.got
  part : f.got <+: logFormat.items r.got
  stopped : f.ch.rxOpen = true → f.pc.goesOn = false → logFormat.complete r.got = true
  goesOn : f.pc.goesOn = true → logFormat.complete r.got = false
  final : f.ended = true → f.got = logFormat.items r.got ∧ logFormat.complete r.got = true

theorem items_snoc (evs : List FrameEvent) (ev : FrameEvent) :
    logFormat.items (evs ++ [ev]) = logFormat.items evs ++ (logFormat.item ev).toList := by
  unfold JournalFormat.items
  rw [List.filterMap_append]
  cases h : logFormat.item ev <;> simp [h]

theorem complete_snoc {evs : List FrameEvent} {ev : FrameEvent} (h : ev.isTerminal = true) :
    logFormat.complete (evs ++ [ev]) = true :=
  JournalFormat.complete_iff.2 ⟨ev, List.mem_append_right _ (List.mem_singleton_self _), h⟩

theorem not_complete_snoc {evs : List FrameEvent} {ev : FrameEvent} (h : ev.isTerminal = false) :
    logFormat.complete (evs ++ [ev]) = logFormat.complete evs := by
  have hlast : logFormat.last ev = false := h
  simp [JournalFormat.complete, hlast]

namespace Exact

variable {f f' : Forwarder} {r r' : Relay}

theorem start (hgot : r.got = []) : Exact Forwarder.start r where
  cap := rfl
  items _ := by rw [hgot]; rfl
  part := List.nil_prefix
  stopped _ h := by cases h
  goesOn _ := by rw [hgot]; rfl
  final h := by cases h

/-- Only the events handed over count. -/
theorem relay (h : Exact f r) (hgot : r'.got = r.got) : Exact f r' where
  cap := h.cap
  items := by rw [hgot]; exact h.items
  part := by rw [hgot]; exact h.part
  stopped := by rw [hgot]; exact h.stopped
  goesOn := by rw [hgot]; exact h.goesOn
  final := by rw [hgot]; exact h.final

/-- Waiting for an event, the loop has passed on everything. -/
theorem items_of_recv (h : Exact f r) (hpc : f.pc = .recv) (ho : f.ch.rxOpen = true) :
    f.got ++ f.ch.queue = logFormat.items r.got := by
  rw [← h.items ho, made, hpc]
  exact (List.append_nil _).symm

/-- The loop takes an event; `hitem` is what it does with it. -/
theorem event (h : Exact f r) (hi : f.Inv r) (hpc : f.pc = .recv) {ev : FrameEvent}
    (hgot : r'.got = r.got ++ [ev]) (hf : f'.got = f.got ∧ f'.ended = f.ended)
    (hch : f'.ch.queue = f.ch.queue ∧ f'.ch.rxOpen = f.ch.rxOpen ∧ f'.ch.cap = f.ch.cap)
    (hitem : f'.pc.item = (logFormat.item ev).toList)
    (hstop : f'.pc.goesOn = !ev.isTerminal) : Exact f' r' where
  cap := hch.2.2.trans h.cap
  items ho := by
    rw [hgot, items_snoc, ← h.items_of_recv hpc (hch.2.1.symm.trans ho), made, hf.1, hch.1, hitem]
  part := by
    rw [hgot, hf.1]
    exact h.part.trans (JournalFormat.items_mono (List.prefix_append _ _))
  stopped _ hgo := by
    rw [hgot]
    apply complete_snoc
    simpa [hgo] using hstop
  goesOn hgo := by
    have hopen : ev.isTerminal = false := by simpa [hgo] using hstop
    rw [hgot, not_complete_snoc hopen]
    exact h.goesOn (by rw [hpc]; rfl)
  final hend := by
    rw [hf.2, hi.not_ended (by simp [hpc])] at hend
    cases hend

theorem recv (h : Exact f r) (hi : f.Inv r) (hpc : f.pc = .recv) {ev : FrameEvent}
    (hgot : r'.got = r.got ++ [ev]) (hev : ev ≠ .eof) :
    Exact { f with pc := onEvent (some ev) } r' := by
  refine h.event hi hpc hgot ⟨rfl, rfl⟩ ⟨rfl, rfl, rfl⟩ ?_ ?_
  · cases ev with
    | eof => exact absurd rfl hev
    | _ => rfl
  · cases ev with
    | eof => exact absurd rfl hev
    | _ => rfl

theorem eof (h : Exact f r) (hi : f.Inv r) (hpc : f.pc = .recv)
    (hgot : r'.got = r.got ++ [.eof]) : Exact f.finish r' :=
  h.event hi hpc hgot ⟨rfl, rfl⟩ ⟨rfl, rfl, rfl⟩ rfl rfl

/-- An item is in the channel. -/
theorem sent (h : Exact f r) (hi : f.Inv r) {item : FrameResult} {last : Bool}
    (hpc : f.pc = .send item last) (hgot : r'.got = r.got)
    (hf : f'.got = f.got ∧ f'.ended = f.ended)
    (hch : f'.ch.queue = f.ch.queue ++ [item] ∧ f'.ch.rxOpen = f.ch.rxOpen ∧
      f'.ch.cap = f.ch.cap)
    (hitem : f'.pc.item = []) (hstop : f'.pc.goesOn = !last) : Exact f' r' where
  cap := hch.2.2.trans h.cap
  items ho := by
    rw [hgot, ← h.items (hch.2.1.symm.trans ho), made, made, hf.1, hch.1, hitem, hpc]
    simp [FwdPc.item]
  part := by
    rw [hgot, hf.1]
    exact h.part
  stopped ho hgo := by
    rw [hgot]
    rw [hgo] at hstop
    exact h.stopped (hch.2.1.symm.trans ho) (by rw [hpc]; exact hstop.symm)
  goesOn hgo := by
    rw [hgot]
    rw [hgo] at hstop
    exact h.goesOn (by rw [hpc]; exact hstop.symm)
  final hend := by
    rw [hf.2, hi.not_ended (by simp [hpc])] at hend
    cases hend

theorem unsent (h : Exact f r) (hi : f.Inv r) (hpc : f.pc ≠ .done) (hrx : f.ch.rxOpen = false)
    (hgot : r'.got = r.got) : Exact f.finish r' where
  cap := h.cap
  items ho := by
    have hclosed : f.finish.ch.rxOpen = false := hrx
    rw [hclosed] at ho
    cases ho
  part := by
    rw [hgot]
    exact h.part
  stopped ho := by
    have hclosed : f.finish.ch.rxOpen = false := hrx
    rw [hclosed] at ho
    cases ho
  goesOn hgo := by cases hgo
  final hend := by
    have hopen : f.finish.ended = false := hi.not_ended hpc
    rw [hopen] at hend
    cases hend

theorem clientRecv (h : Exact f r) (hi : f.Inv r) (hs : f.clientRecv = some f') : Exact f' r := by
  simp only [Forwarder.clientRecv, Option.ite_none_right_eq_some] at hs
  obtain ⟨ho, hs⟩ := hs
  cases hrecv : f.ch.recv with
  | none => simp [hrecv] at hs
  | some p =>
    obtain ⟨o, ch⟩ := p
    rcases Chan.recv_eq_some_iff.1 hrecv with ⟨item, q, hq, rfl, rfl⟩ | ⟨hq, hz, rfl, rfl⟩
    · obtain rfl : { f with ch := { f.ch with queue := q }, got := f.got ++ [item] } = f' := by
        simpa [hrecv] using hs
      have hmade : made { f with ch := { f.ch with queue := q }, got := f.got ++ [item] } =
          f.made := by
        simp [made, hq]
      refine ⟨h.cap, fun _ => hmade.trans (h.items ho), ?_, h.stopped, h.goesOn, fun hend => ?_⟩
      · rw [← h.items ho, ← hmade, made, List.append_assoc]
        exact List.prefix_append _ _
      · have hempty := (hi.final hend).2.1
        rw [hq] at hempty
        cases hempty
    · obtain rfl : { f with ended := true } = f' := by simpa [hrecv] using hs
      -- without a sender the task is done
      have hpc : f.pc = .done := by
        by_contra hne
        have hsenders := hi.senders
        rw [if_neg hne, hz] at hsenders
        cases hsenders
      have hmade : f.made = f.got := by
        rw [made, hq, hpc, List.append_nil]
        exact List.append_nil _
      refine { h with final := fun _ => ⟨?_, h.stopped ho (by rw [hpc]; rfl)⟩ }
      rw [← h.items ho, hmade]

theorem clientDrop (h : Exact f r) (hs : f.clientDrop = some f') : Exact f' r := by
  simp only [Forwarder.clientDrop, Option.ite_none_right_eq_some, Option.some.injEq] at hs
  obtain ⟨-, rfl⟩ := hs
  exact { h with items := (fun ho => by cases ho), stopped := (fun ho => by cases ho) }

end Exact

end Forwarder

namespace Served

/-- Every forwarder against its relay. -/
def Exact (s : Served) : Prop :=
  ∀ i f r, s.fwds i = some f → s.pl.bc.subs i = .live r → f.Exact r

namespace Exact

variable {j₀ : Job} {s s' : Served}

theorem setFwd {i : SubId} {f : Forwarder} {r : Relay} (h : s.Exact)
    (hr : s.pl.bc.subs i = .live r) (hf : f.Exact r) : (s.setFwd i f).Exact := by
  intro j g r' hg hr'
  by_cases hj : j = i
  · subst hj
    obtain rfl : f = g := by simpa [Served.setFwd] using hg
    obtain rfl : r = r' := Sub.live.inj (hr.symm.trans hr')
    exact hf
  · exact h j g r' (by simpa [Served.setFwd, hj] using hg) hr'

/-- Forwarder `i` and its relay take a step together. -/
theorem update {i : SubId} {f : Forwarder} {r : Relay} (h : s.Exact) (hf : f.Exact r) :
    ((s.setRelay i r).setFwd i f).Exact := by
  intro j g r' hg hr'
  by_cases hj : j = i
  · subst hj
    obtain rfl : f = g := by simpa [Served.setFwd] using hg
    obtain rfl : r = r' := by simpa [Served.setFwd, setRelay] using hr'
    exact hf
  · exact h j g r' (by simpa [Served.setFwd, setRelay, hj] using hg)
      (by simpa [Served.setFwd, setRelay, hj] using hr')

theorem fwd (hi : Inv j₀ s) (h : s.Exact) {i : SubId} {a : Forwarder.Act}
    (hs : s.step (.fwd i a) = some s') : s'.Exact := by
  obtain ⟨r, f, hr, hf, hs⟩ := step_fwd hs
  obtain ⟨r₀, hr₀, hinv⟩ := hi.fwd i f hf
  obtain rfl : r = r₀ := Sub.live.inj (hr.symm.trans hr₀)
  have hex := h i f r hf hr
  cases a with
  | recv =>
    obtain ⟨hpc, ho, ⟨ev, q, -, hev, rfl⟩ | ⟨q, -, rfl⟩ | ⟨-, hz, rfl⟩⟩ := stepFwd_recv hs
    · exact h.update (hex.recv hinv hpc rfl hev)
    · exact h.update (hex.eof hinv hpc rfl)
    · -- the relay still has its sender, for it is not done while its client listens
      obtain ⟨acts, hg⟩ := hi.good
      obtain ⟨hrelay, -⟩ := hg.inv.bc.live hr
      have htx := hrelay.clientTx
      rw [hz, hrelay.pc_of_open ho] at htx
      cases htx
  | send =>
    obtain ⟨item, last, hpc, ⟨-, rfl, rfl⟩ | ⟨-, rfl, rfl⟩ | ⟨ho, rfl⟩⟩ := stepFwd_send hs
    · exact h.setFwd hr (hex.sent hinv hpc rfl ⟨rfl, rfl⟩ ⟨rfl, rfl, rfl⟩ rfl rfl)
    · exact h.update (hex.sent hinv hpc rfl ⟨rfl, rfl⟩ ⟨rfl, rfl, rfl⟩ rfl rfl)
    · exact h.update (hex.unsent hinv (by simp [hpc]) ho rfl)
  | clientRecv =>
    obtain ⟨f', hf', rfl⟩ := Option.map_eq_some_iff.1 hs
    exact h.setFwd hr (hex.clientRecv hinv hf')
  | clientDrop =>
    obtain ⟨f', hf', rfl⟩ := Option.map_eq_some_iff.1 hs
    exact h.setFwd hr (hex.clientDrop hf')

theorem step (hi : Inv j₀ s) (h : s.Exact) {a : Act} (hs : s.step a = some s') : s'.Exact := by
  cases a with
  | pipe a =>
    obtain ⟨hc, pl, hpl, rfl⟩ := step_pipe hs
    obtain ⟨acts, hg⟩ := hi.good
    intro i f r' hf hr'
    obtain ⟨r, hr, -⟩ := hi.fwd i f hf
    obtain ⟨r₁, hr₁, hgot, -⟩ := (got_of_pipe hg.inv.bc hc hpl i).1 r hr
    obtain rfl : r₁ = r' := Sub.live.inj (hr₁.symm.trans hr')
    exact (h i f r hf hr).relay hgot
  | openLogs i =>
    obtain ⟨r, hr, hnone, -, rfl⟩ := step_openLogs hs
    exact h.setFwd hr (.start (hi.unread i r hr hnone))
  | abandon i =>
    obtain ⟨r, hr, hnone, -, rfl⟩ := step_abandon hs
    intro j f r' hf hr'
    have hj : j ≠ i := by
      rintro rfl
      have hf' : s.fwds j = some f := hf
      rw [hnone] at hf'
      cases hf'
    exact h j f r' hf (by simpa [setRelay, hj] using hr')
  | fwd i a => exact h.fwd hi hs

theorem reachable (hend : j₀.endedAt = none)
    (hr : Lts.Reachable Served.step (Served.start j₀) s) : Inv j₀ s ∧ s.Exact := by
  refine hr.invariant (I := fun s => Inv j₀ s ∧ s.Exact) ⟨.start hend, ?_⟩ ?_
  · intro i f r hf
    cases hf
  · exact fun s a s' ⟨hi, h⟩ hs => ⟨(hi.step hs).1, h.step hi hs⟩

end Exact

/-! ## Items and log -/

section Log

variable {j₀ : Job} {s : Served} {i : SubId} {f : Forwarder}

/-- A log is complete when its terminal event is there. -/
theorem complete_sent_iff {p : Pipeline} (ht : p.Terminal) :
    logFormat.complete p.bc.sent = true ↔ p.trk.pc = .setRes ∨ p.trk.pc = .returned := by
  obtain ⟨fs, hfs, hsent⟩ := ht
  rw [JournalFormat.complete_iff, hsent]
  constructor
  · rintro ⟨ev, hev, hlast⟩
    rcases List.mem_append.1 hev with hev | hev
    · have hframe : ev.isTerminal = true := hlast
      rw [hfs ev hev] at hframe
      cases hframe
    · rcases p.trk.ending_cases with hnil | ⟨hpc, -⟩
      · rw [hnil] at hev
        cases hev
      · exact hpc
  · intro hpc
    refine ⟨p.trk.lastEvent, List.mem_append_right _ ?_, p.trk.lastEvent_isTerminal⟩
    rcases hpc with hpc | hpc <;> simp [Tracker.ending, hpc]

/-- The events a relay has handed over are a beginning of the log, and all of it with the terminal
one. -/
theorem log_of_got {p : Pipeline} {acts : List Pipeline.Act} (hg : Pipeline.Good j₀ acts p)
    {r : Relay} (hr : p.bc.subs i = .live r) :
    r.got <+: p.bc.sent ∧ (logFormat.complete r.got = true → r.got = p.bc.sent) := by
  have hgot : r.got <+: p.bc.sent := (hg.inv.bc.live hr).2.got.trans (List.prefix_append _ _)
  refine ⟨hgot, fun hc => ?_⟩
  obtain ⟨ev, hev, hlast⟩ := JournalFormat.complete_iff.1 hc
  have hterminal : ev.isTerminal = true := hlast
  obtain ⟨fs, hfs, hsent⟩ := hg.terminal
  rw [hsent] at hgot ⊢
  rcases p.trk.ending_cases with hnil | ⟨-, hone⟩
  · rw [hnil, List.append_nil] at hgot
    rw [hfs ev (hgot.subset hev)] at hterminal
    cases hterminal
  · rw [hone] at hgot ⊢
    rcases hfs.prefix_snoc hgot with hframes | hall
    · rw [hframes ev hev] at hterminal
      cases hterminal
    · exact hall

theorem items_of_exact (hi : Inv j₀ s) (h : s.Exact) (hf : s.fwds i = some f) :
    f.got <+: logFormat.items s.pl.bc.sent ∧ (f.ended = true →
      logFormat.complete s.pl.bc.sent = true ∧ f.got = logFormat.items s.pl.bc.sent) := by
  obtain ⟨acts, hg⟩ := hi.good
  obtain ⟨r, hr, -⟩ := hi.fwd i f hf
  have hex := h i f r hf hr
  obtain ⟨hpart, hwhole⟩ := log_of_got hg hr
  refine ⟨hex.part.trans (JournalFormat.items_mono hpart), fun hend => ?_⟩
  obtain ⟨hgot, hc⟩ := hex.final hend
  rw [← hwhole hc]
  exact ⟨hc, hgot⟩

/-- What the client of a log stream has received is the beginning of the log, item by item, and if
its stream has ended, all of a complete log. The one error it may receive is the one that ended the
job's loop: it is never told that the stream terminated unexpectedly. -/
theorem stream_exact {jobId : JobId} {user : User} {pid : Pid} {now : DateTime}
    (hr : Lts.Reachable Served.step (Served.start (Job.started jobId user pid now)) s)
    (hf : s.fwds i = some f) :
    f.got <+: logFormat.items s.pl.bc.sent ∧
    (f.ended = true → logFormat.complete s.pl.bc.sent = true ∧
      f.got = logFormat.items s.pl.bc.sent) ∧
    ∀ st, .error st ∈ f.got → ∃ err, s.pl.trk.loopErr = some err ∧
      st = .internal ("log stream failed: " ++ err.display) := by
  obtain ⟨hi, h⟩ := Exact.reachable rfl hr
  obtain ⟨hpart, hwhole⟩ := items_of_exact hi h hf
  refine ⟨hpart, hwhole, fun st hst => ?_⟩
  obtain ⟨ev, hev, hitem⟩ := List.mem_filterMap.1 (hpart.subset hst)
  obtain ⟨acts, hg⟩ := hi.good
  obtain ⟨fs, hfs, hsent⟩ := hg.terminal
  cases ev with
  | frame fr => cases hitem
  | eof => cases hitem
  | error err =>
    refine ⟨err, ?_, (Except.error.inj (Option.some.inj hitem)).symm⟩
    rw [hsent] at hev
    rcases List.mem_append.1 hev with hev | hev
    · cases hfs _ hev
    · rcases s.pl.trk.ending_cases with hnil | ⟨-, hone⟩
      · rw [hnil] at hev
        cases hev
      · rw [hone] at hev
        have hlast : s.pl.trk.lastEvent = .error err := (List.mem_singleton.1 hev).symm
        unfold Tracker.lastEvent at hlast
        split at hlast
        · next e he => rw [he, FrameEvent.error.inj hlast]
        · cases hlast

theorem stream_exact_logsRun :
    ∃ s f, Lts.run Served.step (Served.start (Job.started ⟨"job"⟩ ⟨"alice"⟩ ⟨7⟩ ⟨1⟩))
        (logsRun 0 104) = some s ∧ s.fwds 0 = some f ∧ f.got <+: logFormat.items s.pl.bc.sent := by
  have hrun : ((Lts.run Served.step (Served.start (Job.started ⟨"job"⟩ ⟨"alice"⟩ ⟨7⟩ ⟨1⟩))
      (logsRun 0 104)).bind fun s => (s.fwds 0).map fun f => f.ended) = some true := by
    decide +kernel
  obtain ⟨s, hs, hf⟩ := Option.bind_eq_some_iff.1 hrun
  obtain ⟨f, hf, -⟩ := Option.map_eq_some_iff.1 hf
  exact ⟨s, f, hs, hf, (stream_exact ⟨_, hs⟩ hf).1⟩

end Log

end Served

end JobRunner
