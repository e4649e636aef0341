import JobRunner.Verify.Coordinator
import JobRunner.Verify.KillProtocol

/-!
# Snapshots of a job record

A `ps` returns the record of its job at that moment, a `kill` the record of the exit, which is the
record from then on. So the answers are snapshots of one record in the order they are taken, and
what can be said of them is what `wait` does to the record (`life_cycle`).
-/

namespace JobRunner

open Lts

/-! ## The answer to a kill -/

namespace Pipeline

variable {p p' : Pipeline}

theorem oneshot_ok {tx : Nat} {job : Job} (h : p.oneshot tx = some (.ok job)) :
    ∃ req, (req, .ok job) ∈ p.trk.answers := by
  unfold oneshot at h
  split at h
  · next req job' hf =>
    cases h
    exact ⟨req, List.mem_of_find?_eq_some hf⟩
  · cases h
  · split at h <;> cases h

/-- A `kill` call is done with a job only if its oneshot channel held it. -/
theorem kills_of_step {a : Act} (hs : p.step a = some p') {c : Nat} {job : Job}
    (hk : p'.kills c = .done (.ok job)) :
    p.kills c = .done (.ok job) ∨ (p'.trk = p.trk ∧ p.oneshot c = some (.ok job)) := by
  rcases kill_or_other hs with ⟨c', b, rfl⟩ | ⟨-, hkills⟩
  · obtain ⟨call, ch, rfl, hok⟩ := step_kill hs
    by_cases hc : c = c'
    · subst hc
      exact .inr ⟨rfl, hok job (by simpa using hk)⟩
    · exact .inl (by simpa [hc] using hk)
  · rw [hkills] at hk
    exact .inl hk

/-- A `kill` call is done with the record of an exit that is recorded. -/
theorem kill_done {jobId : JobId} {user : User} {pid : Pid} {now : DateTime}
    (hr : Reachable step (start (Job.started jobId user pid now)) p) {c : Nat} {job : Job}
    (hk : p.kills c = .done (.ok job)) : p.trk.waited = true ∧ job = p.trk.job := by
  refine (hr.invariant
    (I := fun p => Reachable step (start (Job.started jobId user pid now)) p ∧
      ∀ c job, p.kills c = .done (.ok job) → p.trk.waited = true ∧ job = p.trk.job)
    ⟨.refl _, fun c job hk => by cases hk⟩ ?_).2 c job hk
  rintro p a p' ⟨hr, hp⟩ hs
  refine ⟨hr.tail hs, fun c job hk => ?_⟩
  rcases kills_of_step hs hk with hold | ⟨htrk, hone⟩
  · -- the record of an exit stays as it is
    obtain ⟨hw, rfl⟩ := hp c job hold
    have hrec := Tracker.RecordInv.run rfl (reachable_trk hr)
    have hev : Reachable Tracker.step p.trk p'.trk := reachable_trk (.single hs)
    have hl := (Tracker.lifeCycle_run rfl hrec hev).2
    exact ⟨Tracker.waited_run hev hw, (hl.frozen (hrec.exited hw).1).symm⟩
  · obtain ⟨req, hm⟩ := oneshot_ok hone
    obtain ⟨evs, hevs⟩ := reachable_trk hr
    obtain ⟨hw, -, hjob⟩ := (Tracker.KillInv.run rfl rfl hevs).answer_ok hm
    rw [htrk]
    exact ⟨hw, hjob⟩

end Pipeline

/-! ## Answers -/

namespace Coord

variable {s s' : Coord}

/-- Where a record in an answer comes from: it is the one `spawn` has made, or the record of the
job, which the step does not touch. -/
theorem Step.done {a : Act} (h : Step s a s') {c : Nat} {user : User} {job : Job}
    (hc : s'.calls c = some { user, pc := .done (.ok (.job job)) }) :
    s.calls c = some { user, pc := .done (.ok (.job job)) } ∨
    (a = .insert c ∧ s.calls c = some { user, pc := .spawning job }) ∨
    (∃ j t, a = .call c user .ps j ∧ s.calls c = none ∧ s.getTracker user j = .ok t ∧
      s'.tracked j = some t ∧ job = t.job) ∨
    (∃ j t, a = .reply c ∧ s.calls c = some { user, pc := .waiting .kill j } ∧
      s.tracked j = some t ∧ s'.tracked j = some t ∧ t.served.pl.kills c = .done (.ok job)) := by
  cases h with
  | rejectSpawn _ _ | spawnFails _ _ | spawn _ _ _ | rejectCall _ _ | refuse _ _ _ =>
    rcases setCall_cases hc with ⟨rfl, he⟩ | ⟨-, hold⟩
    · cases he
    · exact .inl hold
  | enter hnew _ hg he =>
    rcases setCall_cases hc with ⟨rfl, hcall⟩ | ⟨-, hold⟩
    · cases hcall
      rcases (Tracked.enter_cases he).2 with ⟨rfl, rfl, hpc⟩ | ⟨-, hpc⟩
      · cases hpc
        exact .inr (.inr (.inl ⟨_, _, rfl, hnew, hg, by simp, rfl⟩))
      · cases hpc
    · exact .inl hold
  | insert hsp ht he =>
    rcases setCall_cases hc with ⟨rfl, hcall⟩ | ⟨-, hold⟩
    · cases hcall
      obtain ⟨-, -, hpc⟩ := Tracked.insert_cases he
      cases hpc
      exact .inr (.inl ⟨rfl, hsp⟩)
    · exact .inl hold
  | release _ _ he =>
    rcases setCall_cases hc with ⟨rfl, hcall⟩ | ⟨-, hold⟩
    · cases hcall
      cases (Tracked.release_cases he).2
    · exact .inl hold
  | reply hwt ht he =>
    rcases setCall_cases hc with ⟨rfl, hcall⟩ | ⟨-, hold⟩
    · cases hcall
      obtain ⟨-, res, hpc, hres⟩ := Tracked.reply_cases he
      cases hpc
      obtain ⟨rfl, rfl, hk⟩ := hres job rfl
      exact .inr (.inr (.inr ⟨_, _, rfl, hwt, ht, by simp, hk⟩))
    · exact .inl hold
  | timeout _ _ he =>
    rcases setCall_cases hc with ⟨rfl, hcall⟩ | ⟨-, hold⟩
    · cases hcall
      obtain ⟨-, err, hpc⟩ := Tracked.timeout_cases he
      cases hpc
    · exact .inl hold
  | cancel _ _ he =>
    rcases setCall_cases hc with ⟨rfl, hcall⟩ | ⟨-, hold⟩
    · cases hcall
      cases (Tracked.cancel_cases he).2
    · exact .inl hold
  | task _ _ _ => exact .inl hc

/-! ## Two snapshots -/

/-- A step that takes a snapshot of the record of job `j`: a `ps` returns it, the exit branch of
`wait` answers a kill request with it, or a `kill` returns it. -/
inductive Takes (s : Coord) (a : Act) (s' : Coord) (j : JobId) (job : Job) : Prop
  | ps {c user} (ha : a = .call c user .ps j)
      (hc : s'.calls c = some { user, pc := .done (.ok (.job job)) })
  | exit {t t' req} (ht : s.tracked j = some t) (ht' : s'.tracked j = some t')
      (hold : (req, .ok job) ∉ t.served.pl.trk.answers)
      (hm : (req, .ok job) ∈ t'.served.pl.trk.answers)
  | kill {c user} (hc : s.calls c = some { user, pc := .waiting .kill j })
      (hc' : s'.calls c = some { user, pc := .done (.ok (.job job)) })

/-- A snapshot is the record at the end of the step that takes it. -/
theorem Takes.record {a : Act} {j : JobId} {job : Job} (h : Inv s) (hs : Step s a s')
    (ht : Takes s a s' j job) : ∃ t, s'.tracked j = some t ∧ job = t.job := by
  have h' : Inv s' := h.step hs
  cases ht with
  | ps ha hc =>
    subst ha
    cases hs with
    | rejectCall _ _ | refuse _ _ _ => simp at hc
    | enter _ _ hg he =>
      rcases (Tracked.enter_cases he).2 with ⟨-, rfl, rfl⟩ | ⟨hop, -⟩
      · exact ⟨_, setTracked_self .., by simpa [eq_comm] using hc⟩
      · exact absurd rfl hop
  | exit _ ht' _ hm =>
    obtain ⟨user, pid, now, -, hr⟩ := (h'.jobs j _ ht').inv
    obtain ⟨evs, hevs⟩ := Pipeline.reachable_trk hr
    exact ⟨_, ht', ((Tracker.KillInv.run rfl rfl hevs).answer_ok hm).2.2⟩
  | kill hc hc' =>
    rcases hs.done hc' with hold | ⟨-, hsp⟩ | ⟨_, _, -, hnew, -⟩ | ⟨j', t, -, hwt, -, ht', hk⟩
    · rw [hc] at hold
      cases hold
    · rw [hc] at hsp
      cases hsp
    · rw [hc] at hnew
      cases hnew
    · rw [hc] at hwt
      cases hwt
      obtain ⟨user, pid, now, -, hr⟩ := (h'.jobs j t ht').inv
      exact ⟨t, ht', (Pipeline.kill_done hr hk).2⟩

/-- **Two snapshots of a job**, the second not before the first. -/
theorem life_cycle {s₁ s₁' s₂ s₂' : Coord} {a₁ a₂ : Act} {j : JobId} {job₁ job₂ : Job}
    (hr₁ : Reachable step init s₁) (hs₁ : s₁.step a₁ = some s₁') (ht₁ : Takes s₁ a₁ s₁' j job₁)
    (hr₂ : Reachable step init s₂) (hs₂ : s₂.step a₂ = some s₂') (ht₂ : Takes s₂ a₂ s₂' j job₂)
    (hr : Reachable step s₁' s₂') :
    (job₂.id = job₁.id ∧ job₂.user = job₁.user ∧ job₂.startedAt = job₁.startedAt) ∧
    (job₁.endedAt.isSome = true ↔ job₁.state.isExited = true) ∧
    (job₂.endedAt.isSome = true ↔ job₂.state.isExited = true) ∧
    (job₁.state.isExited = true → job₂.state.isExited = true) ∧
    (job₁.killed.isSome = true → job₂.killed.isSome = true) ∧
    (job₁.state.isExited = true → job₂ = job₁) := by
  have hi₁ : Inv s₁ := .reachable hr₁
  have hi₂ : Inv s₂ := .reachable hr₂
  obtain ⟨t₁, htr₁, rfl⟩ := ht₁.record hi₁ (step_of hs₁)
  obtain ⟨t₂, htr₂, rfl⟩ := ht₂.record hi₂ (step_of hs₂)
  have hof₁ : t₁.Of j := (hi₁.step (step_of hs₁)).jobs j t₁ htr₁
  have hof₂ : t₂.Of j := (hi₂.step (step_of hs₂)).jobs j t₂ htr₂
  obtain ⟨t, ht, hserved, -⟩ := reachable_served hr htr₁
  obtain rfl : t = t₂ := Option.some.inj (ht.symm.trans htr₂)
  have hl : Tracker.LifeCycle t₁.job t.job := hof₁.lifeCycle hserved
  refine ⟨⟨hl.id_eq, hl.user_eq, hl.startedAt_eq⟩, hof₁.endedAt_iff, hof₂.endedAt_iff, ?_,
    hl.killed, hl.frozen⟩
  intro hx
  rw [hl.frozen hx]
  exact hx

section Runs

/-- A job of alice is spawned. -/
def spawnRun : List Act :=
  [.spawn 0 ⟨"alice"⟩ "sleep" (.ok ⟨⟨"job"⟩, ⟨7⟩, ⟨1⟩⟩), .insert 0]

theorem life_cycle_spawnRun : ∃ s₁ s₁' s₂ s₂' job₁ job₂,
    run step init spawnRun = some s₁ ∧ s₁.step (.call 1 ⟨"alice"⟩ .ps ⟨"job"⟩) = some s₁' ∧
    s₁'.step (.task ⟨"job"⟩ (.pipe (.exit (.ok (.exited 0)) ⟨2⟩))) = some s₂ ∧
    s₂.step (.call 2 ⟨"alice"⟩ .ps ⟨"job"⟩) = some s₂' ∧
    s₁'.calls 1 = some ⟨⟨"alice"⟩, .done (.ok (.job job₁))⟩ ∧
    s₂'.calls 2 = some ⟨⟨"alice"⟩, .done (.ok (.job job₂))⟩ ∧
    job₁.state.isExited = false ∧ job₂.state.isExited = true ∧ job₂.startedAt = job₁.startedAt := by
  have h₁ : ((run step init spawnRun).bind fun s =>
      (s.step (.call 1 ⟨"alice"⟩ .ps ⟨"job"⟩)).bind fun s' =>
        (s'.step (.task ⟨"job"⟩ (.pipe (.exit (.ok (.exited 0)) ⟨2⟩)))).bind fun t =>
          (t.step (.call 2 ⟨"alice"⟩ .ps ⟨"job"⟩)).bind fun t' =>
            (s'.calls 1).bind fun call => (t'.calls 2).map fun call' => (call, call')) =
      some (⟨⟨"alice"⟩, .done (.ok (.job (Job.started ⟨"job"⟩ ⟨"alice"⟩ ⟨7⟩ ⟨1⟩)))⟩,
        ⟨⟨"alice"⟩, .done (.ok (.job { Job.started ⟨"job"⟩ ⟨"alice"⟩ ⟨7⟩ ⟨1⟩ with
          endedAt := some ⟨2⟩, state := .exited ⟨some 0⟩ }))⟩) := by decide +kernel
  obtain ⟨s₁, hr₁, h₁⟩ := Option.bind_eq_some_iff.1 h₁
  obtain ⟨s₁', hs₁, h₁⟩ := Option.bind_eq_some_iff.1 h₁
  obtain ⟨s₂, hx, h₁⟩ := Option.bind_eq_some_iff.1 h₁
  obtain ⟨s₂', hs₂, h₁⟩ := Option.bind_eq_some_iff.1 h₁
  obtain ⟨call, hc₁, h₁⟩ := Option.bind_eq_some_iff.1 h₁
  obtain ⟨call', hc₂, h₁⟩ := Option.map_eq_some_iff.1 h₁
  obtain ⟨rfl, rfl⟩ := Prod.mk.inj h₁
  have hr₁' : Reachable step init s₁' := (Reachable.tail ⟨_, hr₁⟩ hs₁)
  obtain ⟨⟨-, -, hst⟩, -⟩ := life_cycle ⟨_, hr₁⟩ hs₁ (.ps rfl hc₁) (hr₁'.tail hx) hs₂ (.ps rfl hc₂)
    ((Reachable.single hx).tail hs₂)
  exact ⟨s₁, s₁', s₂, s₂', _, _, hr₁, hs₁, hx, hs₂, hc₁, hc₂, rfl, rfl, hst⟩

end Runs

end Coord

end JobRunner
