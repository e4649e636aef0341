import JobRunner.Verify.Snapshots

/-!
# Which records convert

`From<Job> for pb::jobs::Job` unwraps the exit code of a job that has exited, and a process ended
by a signal has none. `exit_recorded` reads off the labels of a run what the record of a job says
of its exit, and `reportable_iff` when every answer the coordinator can give converts.
-/

namespace JobRunner

open Lts

/-! ## The exits of a run -/

theorem Tracked.exits_iff {b : Served.Act} {status : ProcStatus} {now : DateTime} :
    exits b = some (status, now) ↔ b = .pipe (.exit (.ok status) now) := by
  unfold exits
  split
  · simp
  · next hne =>
    constructor
    · intro h
      cases h
    · exact fun h => absurd h (hne _ _)

namespace Served

variable {s s' : Served}

/-- Serving the logs of a job touches nothing but its broadcaster's subscribers. -/
theorem fwd_pl {i : SubId} {a : Forwarder.Act} (hs : s.step (.fwd i a) = some s') :
    ∃ bc, s'.pl = { s.pl with bc } := by
  obtain ⟨r, f, -, -, hs⟩ := step_fwd hs
  cases a with
  | recv =>
    obtain ⟨-, -, ⟨ev, q, -, -, rfl⟩ | ⟨q, -, rfl⟩ | ⟨-, -, rfl⟩⟩ := stepFwd_recv hs <;>
      exact ⟨_, rfl⟩
  | send =>
    obtain ⟨item, last, -, ⟨-, -, rfl⟩ | ⟨-, -, rfl⟩ | ⟨-, rfl⟩⟩ := stepFwd_send hs <;>
      exact ⟨_, rfl⟩
  | clientRecv =>
    obtain ⟨f', -, rfl⟩ := stepFwd_client (.inl rfl) hs
    exact ⟨s.pl.bc, rfl⟩
  | clientDrop =>
    obtain ⟨f', -, rfl⟩ := stepFwd_client (.inr rfl) hs
    exact ⟨s.pl.bc, rfl⟩

/-- A step is one of the pipeline, or it leaves it alone but for the subscribers. -/
theorem pl_of_step {b : Act} (hs : s.step b = some s') :
    (∃ a, b = .pipe a ∧ s.pl.step a = some s'.pl) ∨
      ((∀ a, b ≠ .pipe a) ∧ ∃ bc, s'.pl = { s.pl with bc }) := by
  cases b with
  | pipe a =>
    obtain ⟨-, pl, hpl, rfl⟩ := step_pipe hs
    exact .inl ⟨a, rfl, hpl⟩
  | openLogs i =>
    obtain ⟨r, -, -, -, rfl⟩ := step_openLogs hs
    exact .inr ⟨by simp, s.pl.bc, rfl⟩
  | abandon i =>
    obtain ⟨r, -, -, -, rfl⟩ := step_abandon hs
    exact .inr ⟨by simp, _, rfl⟩
  | fwd i a => exact .inr ⟨by simp, fwd_pl hs⟩

theorem events_of_step {b : Act} (hs : s.step b = some s') :
    ∃ evs, run Tracker.step s.pl.trk evs = some s'.pl.trk ∧
      ∀ status now, Tracker.Ev.exit (.ok status) now ∈ evs ↔
        Tracked.exits b = some (status, now) := by
  rcases pl_of_step hs with ⟨a, rfl, hpl⟩ | ⟨hne, bc, hpl⟩
  · obtain ⟨evs, hevs, hx⟩ := Pipeline.events_of_step hpl
    refine ⟨evs, hevs, fun status now => ?_⟩
    rw [hx, Tracked.exits_iff, Act.pipe.injEq]
  · refine ⟨[], by rw [hpl]; rfl, fun status now => ?_⟩
    rw [Tracked.exits_iff]
    simp [hne]

end Served

namespace Coord

variable {s s' : Coord}

/-- The events a label gives the tracker of job `j`. -/
theorem JobStep.events {a : Act} {j : JobId} {t t' : Tracked} (h : JobStep s a j t t') :
    ∃ evs, run Tracker.step t.served.pl.trk evs = some t'.served.pl.trk ∧
      ∀ status now, Tracker.Ev.exit (.ok status) now ∈ evs ↔
        a = .task j (.pipe (.exit (.ok status) now)) := by
  obtain ⟨b, ⟨hb, -⟩, hlab⟩ := h.moves
  rcases hlab with ⟨b, rfl, rfl⟩ | ⟨hnone, ha⟩
  · obtain ⟨evs, hevs, hx⟩ := Served.events_of_step (run_single.1 hb)
    refine ⟨evs, hevs, fun status now => ?_⟩
    rw [hx, Tracked.exits_iff, Act.task.injEq, eq_self, true_and]
  · cases b with
    | none =>
      have he : t.served = t'.served := Option.some.inj hb
      exact ⟨[], by rw [he]; rfl, by simp [ha]⟩
    | some b =>
      obtain ⟨evs, hevs, hx⟩ := Served.events_of_step (run_single.1 hb)
      refine ⟨evs, hevs, fun status now => ?_⟩
      have hb' : Tracked.exits b = none := hnone
      rw [hx, hb']
      simp [ha]

/-- The events of the tracker of job `j` in a run, and the exits among its labels. -/
def Traced (acts : List Act) (j : JobId) (t : Tracked) : Prop :=
  ∃ user pid now evs,
    run Tracker.step (Tracker.start (Job.started j user pid now)) evs = some t.served.pl.trk ∧
    ∀ status now, Tracker.Ev.exit (.ok status) now ∈ evs ↔
      Act.task j (.pipe (.exit (.ok status) now)) ∈ acts

theorem Traced.step {acts : List Act} {a : Act} {j : JobId} {t t' : Tracked}
    (h : Traced acts j t) (hm : JobStep s a j t t') : Traced (acts ++ [a]) j t' := by
  obtain ⟨user, pid, now, evs, hevs, hx⟩ := h
  obtain ⟨evs', hevs', hx'⟩ := hm.events
  refine ⟨user, pid, now, evs ++ evs', run_append_of hevs hevs', fun status now => ?_⟩
  rw [List.mem_append, hx, hx', List.mem_append, List.mem_singleton, eq_comm]

/-- Every job of a run is traced, and a job that is not tracked has taken no step. -/
theorem traced_run {acts : List Act} (hr : run step init acts = some s) :
    (∀ j t, s.tracked j = some t → Traced acts j t) ∧
    ∀ j, s.tracked j = none → ∀ b, Act.task j b ∉ acts := by
  refine run_induct (motive := fun acts s =>
    (∀ j t, s.tracked j = some t → Traced acts j t) ∧
      ∀ j, s.tracked j = none → ∀ b, Act.task j b ∉ acts) ⟨?_, ?_⟩ ?_ hr
  · intro j t ht
    cases ht
  · intro j _ b hb
    cases hb
  · rintro acts s a s' - ⟨htr, hno⟩ hs
    refine ⟨fun j t' ht' => ?_, fun j hj b hb => ?_⟩
    · rcases (step_of hs).came ht' with ⟨t, ht, hm⟩ | ⟨hnone, ha, child, user, rfl, rfl⟩
      · exact (htr j t ht).step hm
      · refine ⟨user, child.pid, child.now, [], rfl, fun status now => ?_⟩
        have hold := hno _ hnone (.pipe (.exit (.ok status) now))
        simp [hold, (ha _).symm]
    · have hnone : s.tracked j = none := by
        cases ht : s.tracked j with
        | none => rfl
        | some t =>
          obtain ⟨t', ht', -⟩ := (step_of hs).stays ht
          rw [hj] at ht'
          cases ht'
      rcases List.mem_append.1 hb with hold | hnew
      · exact hno j hnone b hold
      · -- a job that is not tracked takes no step
        obtain rfl := List.mem_singleton.1 hnew
        simp [Coord.step, hnone] at hs

/-- The record of a job says how its child was seen to exit. -/
theorem exit_recorded {acts : List Act} (hr : run step init acts = some s) {j : JobId} {t : Tracked}
    (ht : s.tracked j = some t) :
    (∀ status now, Act.task j (.pipe (.exit (.ok status) now)) ∈ acts →
      t.job.state = .exited (.ofProc status)) ∧
    (t.job.state.isExited = true →
      ∃ status now, Act.task j (.pipe (.exit (.ok status) now)) ∈ acts) := by
  obtain ⟨user, pid, now, evs, hevs, hx⟩ := (traced_run hr).1 j t ht
  obtain ⟨hrec, hex⟩ : Tracker.RecordInv (Job.started j user pid now) t.served.pl.trk ∧
      Tracker.ExitRecorded evs t.served.pl.trk := Tracker.exitRecorded_run rfl rfl hevs
  refine ⟨fun status now hm => (hex.recorded status now ((hx status now).2 hm)).2.1, fun hst => ?_⟩
  have hw : t.served.pl.trk.waited = true := hrec.waited_of_exited rfl hst
  obtain ⟨status, now, hm⟩ := hex.seen hw
  exact ⟨status, now, (hx status now).1 hm⟩

/-- The record of a job converts unless its child was seen to be ended by a signal. -/
theorem toPb_isSome_iff {acts : List Act} (hr : run step init acts = some s) {j : JobId}
    {t : Tracked} (ht : s.tracked j = some t) : t.job.toPb.isSome = true ↔
    ∀ signal now, Act.task j (.pipe (.exit (.ok (.signaled signal)) now)) ∉ acts := by
  obtain ⟨hrec, hseen⟩ := exit_recorded hr ht
  rw [Job.toPb_isSome]
  constructor
  · intro h signal now hm
    have hst := h _ (hrec _ now hm)
    cases hst
  · intro h status hst
    obtain ⟨proc, now, hm⟩ := hseen (by rw [hst]; rfl)
    obtain rfl : status = .ofProc proc := by
      have he := hrec proc now hm
      rw [hst] at he
      exact JobState.exited.inj he
    cases proc with
    | exited code => rfl
    | signaled signal => exact absurd hm (h signal now)

/-! ## Every answer -/

/-- A record that a `ps` or a successful `kill` would return to the owner of job `j` now. -/
inductive CanReturn (s : Coord) (j : JobId) (job : Job) : Prop
  | ps {user t} (hg : s.getTracker user j = .ok t) (hjob : job = t.job)
  | kill {c user s'} (hc : s.calls c = some { user, pc := .waiting .kill j })
      (hs : s.step (.reply c) = some s')
      (hc' : s'.calls c = some { user, pc := .done (.ok (.job job)) })

/-- It is the record of a registered job. -/
theorem CanReturn.record (h : Inv s) {j : JobId} {job : Job} (hret : CanReturn s j job) :
    ∃ t, s.tracked j = some t ∧ t.registered = true ∧ job = t.job := by
  cases hret with
  | ps hg hjob =>
    obtain ⟨ht, hreg, -⟩ := getTracker_ok.1 hg
    exact ⟨_, ht, hreg, hjob⟩
  | kill hc hs hc' =>
    obtain ⟨t, ht, hreg, -⟩ := h.known _ _ hc
    refine ⟨t, ht, hreg, ?_⟩
    rcases (step_of hs).done hc' with hold | ⟨ha, -⟩ | ⟨_, _, ha, -⟩ | ⟨j', t', -, hwt, ht', -, hk⟩
    · rw [hc] at hold
      cases hold
    · cases ha
    · cases ha
    · rw [hc] at hwt
      cases hwt
      obtain rfl : t = t' := Option.some.inj (ht.symm.trans ht')
      obtain ⟨user, pid, now, -, hr⟩ := (h.jobs _ t ht).inv
      exact (Pipeline.kill_done hr hk).2

/-- **Which records can be reported.** In every state of a run every record that `ps` or `kill` can
then return converts, exactly if no registered job has been seen to be ended by a signal. -/
theorem reportable_iff {acts : List Act} (hr : run step init acts = some s) :
    (∀ as u, as <+: acts → run step init as = some u →
      ∀ j job, CanReturn u j job → job.toPb.isSome = true) ↔
    ∀ j t, s.tracked j = some t → t.registered = true →
      ∀ signal now, Act.task j (.pipe (.exit (.ok (.signaled signal)) now)) ∉ acts := by
  constructor
  · intro h j t ht hreg
    have hret : CanReturn s j t.job := .ps (getTracker_ok.2 ⟨ht, hreg, rfl⟩) rfl
    exact (toPb_isSome_iff hr ht).1 (h acts s (List.prefix_refl acts) hr j t.job hret)
  · rintro h as u ⟨bs, rfl⟩ hu j job hret
    obtain ⟨t, ht, hreg, rfl⟩ := hret.record (.reachable ⟨as, hu⟩)
    obtain ⟨u', hu', hbs⟩ := run_append_iff.1 hr
    obtain rfl : u = u' := Option.some.inj (hu.symm.trans hu')
    -- what is registered by now is registered at the end
    obtain ⟨t', ht', -, hreg'⟩ := reachable_served ⟨bs, hbs⟩ ht
    rw [toPb_isSome_iff hu ht]
    intro signal now hm
    exact h j t' ht' (hreg' hreg) signal now (List.mem_append_left bs hm)

section Runs

/-- Alice kills her job, and the child dies of it. -/
def killedRun : List Act :=
  spawnRun ++ [.call 1 ⟨"alice"⟩ .kill ⟨"job"⟩, .task ⟨"job"⟩ (.pipe (.kill 1 .send)),
    .task ⟨"job"⟩ (.pipe .recvKill), .task ⟨"job"⟩ (.pipe (.killRes (.ok ()) ⟨2⟩)),
    .task ⟨"job"⟩ (.pipe (.exit (.ok (.signaled 9)) ⟨3⟩)),
    .task ⟨"job"⟩ (.pipe (.kill 1 .recv))]

theorem reportable_iff_spawnRun : ∃ s, run step init spawnRun = some s ∧
    ∀ as u, as <+: spawnRun → run step init as = some u →
      ∀ j job, CanReturn u j job → job.toPb.isSome = true := by
  have hrun : ((run step init spawnRun).map fun s => (s.calls 1).isNone) = some true := by
    decide +kernel
  obtain ⟨s, hs, -⟩ := Option.map_eq_some_iff.1 hrun
  exact ⟨s, hs, (reportable_iff hs).2 fun j t _ _ signal now => by simp [spawnRun]⟩

/-- The answer to the kill does not convert. -/
theorem not_reportable_killedRun :
    ¬∀ s, Reachable step init s → ∀ j job, CanReturn s j job → job.toPb.isSome = true := by
  intro h
  have hrun : ((run step init killedRun).bind fun s => (s.step (.reply 1)).bind fun s' =>
      (s.calls 1).bind fun call => (s'.calls 1).map fun call' => (call, call')) =
      some (⟨⟨"alice"⟩, .waiting .kill ⟨"job"⟩⟩,
        ⟨⟨"alice"⟩, .done (.ok (.job { Job.started ⟨"job"⟩ ⟨"alice"⟩ ⟨7⟩ ⟨1⟩ with
          killed := some ⟨⟨2⟩, ⟨"alice"⟩⟩, endedAt := some ⟨3⟩, state := .exited ⟨none⟩ }))⟩) := by
    decide +kernel
  obtain ⟨s, hs, hrun⟩ := Option.bind_eq_some_iff.1 hrun
  obtain ⟨s', hs', hrun⟩ := Option.bind_eq_some_iff.1 hrun
  obtain ⟨call, hc, hrun⟩ := Option.bind_eq_some_iff.1 hrun
  obtain ⟨call', hc', hrun⟩ := Option.map_eq_some_iff.1 hrun
  obtain ⟨rfl, rfl⟩ := Prod.mk.inj hrun
  have hsome := h s ⟨_, hs⟩ _ _ (.kill hc hs' hc')
  cases hsome

end Runs

end Coord

end JobRunner
