import JobRunner.Verify.Snapshots

/-!
# Jobs nobody owns

`spawn` starts the child and detaches its tracker before it awaits the lock of `Memory`. A call
that is dropped in this await leaves a job that runs but has no entry, and since no other call
knows its id it never gets one. `orphan_iff` says that this is the only way a running job can be
out of the reach of its owner.
-/

namespace JobRunner

open Lts

namespace Coord

variable {s s' : Coord} {acts : List Act}

/-- A `spawn` of the user has started the child of job `j`. -/
def Started (acts : List Act) (user : User) (j : JobId) : Prop :=
  ∃ c name child, Act.spawn c user name (.ok child) ∈ acts ∧ validateSpawn name = .ok () ∧
    child.jobId = j

/-- The label drops the `spawn` of job `j` in its await of the lock of `Memory`. -/
def DropsSpawn (j : JobId) (s : Coord) (a : Act) : Prop :=
  ∃ c user job, a = .cancel c ∧ s.calls c = some { user, pc := .spawning job } ∧ job.id = j

def Dropped (acts : List Act) (j : JobId) : Prop := Met step (DropsSpawn j) init acts

/-- No `spawn` call is in progress. -/
def NoSpawn (s : Coord) : Prop :=
  ∀ c user job, s.calls c ≠ some { user, pc := .spawning job }

/-- `JobTracker::wait` has not returned for the job. -/
def Alive (s : Coord) (j : JobId) : Prop :=
  ∃ t, s.tracked j = some t ∧ t.served.pl.trk.pc ≠ .returned

/-- The owner finds the job under its id, as `ps` and `kill` look it up. -/
def OwnedBy (s : Coord) (user : User) (j : JobId) : Prop :=
  ∃ t, s.getTracker user j = .ok t ∧ t.job.id = j ∧ t.job.user = user

/-! ## Who may still insert a job -/

/-- How a started job stands with `Memory.jobs`. A job without an entry has its `spawn` call still
at the lock, or lost it there; in the second case nobody is left to insert it. -/
structure Entries (acts : List Act) (s : Coord) : Prop where
  started : ∀ user j, Started acts user j → ∃ t, s.tracked j = some t ∧ t.job.user = user
  spawned : ∀ j t, s.tracked j = some t → Started acts t.job.user j
  missing : ∀ j t, s.tracked j = some t → t.registered = false →
    (∃ c user job, s.calls c = some { user, pc := .spawning job } ∧ job.id = j) ∨ Dropped acts j
  dropped : ∀ j, Dropped acts j → (∃ t, s.tracked j = some t ∧ t.registered = false) ∧
    ∀ c user job, s.calls c = some { user, pc := .spawning job } → job.id ≠ j

/-- A `spawn` call stays at the lock until it gets it or is dropped. -/
theorem Step.spawning {a : Act} (h : Step s a s') {c : Nat} {user : User} {job : Job}
    (hc : s.calls c = some { user, pc := .spawning job }) :
    s'.calls c = some { user, pc := .spawning job } ∨ a = .insert c ∨ a = .cancel c := by
  rcases h.keeps hc with hsame | ⟨-, rfl | rfl | rfl | rfl, -⟩
  · exact .inl hsame
  · exact .inr (.inl rfl)
  · cases h with
    | reply hwt _ _ =>
      rw [hc] at hwt
      cases hwt
  · cases h with
    | timeout hwt _ _ =>
      rw [hc] at hwt
      cases hwt
  · exact .inr (.inr rfl)

/-- A job that is new has its `spawn` call at the lock. -/
theorem Step.spawned {a : Act} (h : Step s a s') {j : JobId} {t' : Tracked}
    (hold : s.tracked j = none) (hnew : s'.tracked j = some t') :
    ∃ c user name child, a = .spawn c user name (.ok child) ∧ validateSpawn name = .ok () ∧
      child.jobId = j ∧ t' = Tracked.start (child.job user) ∧
      s'.calls c = some { user, pc := .spawning (child.job user) } := by
  have same : ∀ {u : Coord}, u.tracked = s.tracked → u.tracked j ≠ some t' := by
    intro u hu he
    rw [hu, hold] at he
    cases he
  have moved : ∀ {j' : JobId} {t₁ t₂ : Tracked}, s.tracked j' = some t₁ →
      (s.setTracked j' t₂).tracked j ≠ some t' := by
    intro j' t₁ t₂ ht he
    have hne : j ≠ j' := by
      intro hj
      rw [← hj, hold] at ht
      cases ht
    rw [setTracked_of_ne hne, hold] at he
    cases he
  cases h with
  | rejectSpawn _ _ => exact absurd hnew (same (by rfl))
  | spawnFails _ _ => exact absurd hnew (same (by rfl))
  | rejectCall _ _ => exact absurd hnew (same (by rfl))
  | refuse _ _ _ => exact absurd hnew (same (by rfl))
  | @spawn c user name child _ hv _ =>
    have hj : child.jobId = j := by
      by_contra hne
      rw [setCall_tracked, setTracked_of_ne (Ne.symm hne), hold] at hnew
      cases hnew
    rw [setCall_tracked, hj, setTracked_self, Option.some.injEq] at hnew
    exact ⟨c, user, name, child, rfl, hv, hj, hnew.symm, setCall_self ..⟩
  | enter _ _ hg _ => exact absurd hnew (moved (getTracker_ok.1 hg).1)
  | insert _ ht _ => exact absurd hnew (moved ht)
  | release _ ht _ => exact absurd hnew (moved ht)
  | reply _ ht _ => exact absurd hnew (moved ht)
  | timeout _ ht _ => exact absurd hnew (moved ht)
  | cancel _ ht _ => exact absurd hnew (moved ht)
  | task ht _ _ => exact absurd hnew (moved ht)

/-- The insertion of its job ends a `spawn`. -/
theorem Step.inserted {c : Nat} (h : Step s (.insert c) s') {user : User} {job : Job}
    (hc : s.calls c = some { user, pc := .spawning job }) :
    ∃ t, s'.tracked job.id = some t ∧ t.registered = true := by
  cases h with
  | insert hc' ht he =>
    rw [hc] at hc'
    cases hc'
    obtain ⟨-, ht', -⟩ := Tracked.insert_cases he
    refine ⟨_, setTracked_self .., ?_⟩
    rw [ht']

/-- A dropped `spawn` leaves the entry of its job as it was. -/
theorem Step.droppedSpawn {c : Nat} (h : Step s (.cancel c) s') {user : User} {job : Job}
    (hc : s.calls c = some { user, pc := .spawning job }) :
    s'.calls c = some { user, pc := .cancelled } := by
  cases h with
  | release hc' ht he =>
    rw [hc] at hc'
    cases hc'
    obtain ⟨-, hpc⟩ := Tracked.release_cases he
    rw [setCall_self, hpc]
  | cancel hc' _ _ =>
    rw [hc] at hc'
    cases hc'

namespace Entries

theorem init : Entries [] init where
  started user j h := by
    obtain ⟨c, name, child, hm, -⟩ := h
    cases hm
  spawned j t ht := by cases ht
  missing j t ht := by cases ht
  dropped j h := absurd h not_met_nil

/-- An entry is as missing as before, but for the insertion of its job. -/
theorem unregistered {a : Act} {j : JobId} {t t' : Tracked} (hm : JobStep s a j t t')
    (hreg : t'.registered = false) : t.registered = false := by
  obtain ⟨b, hmv, -⟩ := hm.moves
  cases hold : t.registered with
  | false => rfl
  | true =>
    rw [hmv.registered hold] at hreg
    cases hreg

theorem step_started {a : Act} (he : Entries acts s) (hi : Inv s) (hs : Step s a s') {user : User}
    {j : JobId} (h : Started (acts ++ [a]) user j) :
    ∃ t, s'.tracked j = some t ∧ t.job.user = user := by
  obtain ⟨c, name, child, hm, hv, hj⟩ := h
  rcases List.mem_append.1 hm with hold | hnew
  · obtain ⟨t, ht, hu⟩ := he.started user j ⟨c, name, child, hold, hv, hj⟩
    obtain ⟨t', ht', hmv⟩ := hs.stays ht
    exact ⟨t', ht', (hi.user_eq ht hmv.reachable).trans hu⟩
  · rw [List.mem_singleton] at hnew
    subst hnew
    cases hs with
    | rejectSpawn _ hv' =>
      rw [hv] at hv'
      cases hv'
    | spawn _ _ _ =>
      refine ⟨Tracked.start (child.job user), ?_, rfl⟩
      rw [setCall_tracked, ← hj, setTracked_self]

theorem step_spawned {a : Act} (he : Entries acts s) (hi : Inv s) (hs : Step s a s') {j : JobId}
    {t' : Tracked} (ht' : s'.tracked j = some t') : Started (acts ++ [a]) t'.job.user j := by
  cases ht : s.tracked j with
  | some t =>
    obtain ⟨t₁, ht₁, hmv⟩ := hs.stays ht
    obtain rfl : t₁ = t' := Option.some.inj (ht₁.symm.trans ht')
    obtain ⟨c, name, child, hm, hv, hj⟩ := he.spawned j t ht
    rw [hi.user_eq ht hmv.reachable]
    exact ⟨c, name, child, List.mem_append_left _ hm, hv, hj⟩
  | none =>
    obtain ⟨c, user, name, child, rfl, hv, hj, rfl, -⟩ := hs.spawned ht ht'
    exact ⟨c, name, child, List.mem_append_right _ (List.mem_singleton_self _), hv, hj⟩

theorem step_missing {a : Act} (hr : Lts.run Coord.step Coord.init acts = some s)
    (he : Entries acts s) (hs : Step s a s') {j : JobId} {t' : Tracked}
    (ht' : s'.tracked j = some t') (hreg : t'.registered = false) :
    (∃ c user job, s'.calls c = some { user, pc := .spawning job } ∧ job.id = j) ∨
      Dropped (acts ++ [a]) j := by
  cases ht : s.tracked j with
  | some t =>
    obtain ⟨t₁, ht₁, hmv⟩ := hs.stays ht
    obtain rfl : t₁ = t' := Option.some.inj (ht₁.symm.trans ht')
    rcases he.missing j t ht (unregistered hmv hreg) with ⟨c, user, job, hc, hj⟩ | hd
    · rcases hs.spawning hc with hc' | rfl | rfl
      · exact .inl ⟨c, user, job, hc', hj⟩
      · obtain ⟨t₂, ht₂, hreg₂⟩ := hs.inserted hc
        rw [hj, ht', Option.some.injEq] at ht₂
        rw [ht₂, hreg₂] at hreg
        cases hreg
      · exact .inr ((met_snoc hr).2 (.inr ⟨c, user, job, rfl, hc, hj⟩))
    · exact .inr ((met_snoc hr).2 (.inl hd))
  | none =>
    obtain ⟨c, user, name, child, -, -, hj, -, hc⟩ := hs.spawned ht ht'
    exact .inl ⟨c, user, _, hc, hj⟩

theorem step_dropped {a : Act} (hr : Lts.run Coord.step Coord.init acts = some s)
    (he : Entries acts s) (hi : Inv s) (hs : Step s a s') {j : JobId}
    (h : Dropped (acts ++ [a]) j) : (∃ t, s'.tracked j = some t ∧ t.registered = false) ∧
      ∀ c user job, s'.calls c = some { user, pc := .spawning job } → job.id ≠ j := by
  -- whoever is at the lock for `j` after the step was there before it
  have back : (∃ t, s.tracked j = some t) → ∀ {c user job},
      s'.calls c = some { user, pc := .spawning job } → job.id = j →
      s.calls c = some { user, pc := .spawning job } := by
    intro ⟨t, ht⟩ c user job hc hj
    rcases hs.called hc with ⟨hold, -⟩ | ⟨u, name, child, -, hcall, hnew, -⟩ |
      ⟨op, j', t', hpc, -⟩ | hend
    · exact hold
    · cases hcall
      change child.jobId = j at hj
      rw [hj, ht] at hnew
      cases hnew
    · cases hpc
    · cases hend
  rcases (met_snoc hr).1 h with hold | ⟨c, user, job, rfl, hc, hj⟩
  · obtain ⟨⟨t, ht, hreg⟩, hno⟩ := he.dropped j hold
    obtain ⟨t', ht', hmv⟩ := hs.stays ht
    refine ⟨⟨t', ht', ?_⟩, fun c user job hc hj => hno c user job (back ⟨t, ht⟩ hc hj) hj⟩
    rcases hmv.registered with hsame | ⟨c, user, job, -, hc, hj⟩
    · rw [hsame, hreg]
    · exact absurd hj (hno c user job hc)
  · obtain ⟨t, ht, hreg, -⟩ := hi.known c _ hc
    rw [hj] at ht
    obtain ⟨t', ht', hmv⟩ := hs.stays ht
    refine ⟨⟨t', ht', ?_⟩, fun c' user' job' hc' hj' => ?_⟩
    · rcases hmv.registered with hsame | ⟨_, _, _, ha, -⟩
      · rw [hsame, hreg]
      · cases ha
    · have hcc : c' = c := hi.unique c' c user' user job' job (back ⟨t, ht⟩ hc' hj') hc
        (hj'.trans hj.symm)
      rw [hcc, hs.droppedSpawn hc] at hc'
      cases hc'

theorem step {a : Act} (hr : Lts.run Coord.step Coord.init acts = some s) (he : Entries acts s)
    (hi : Inv s) (hs : Step s a s') : Entries (acts ++ [a]) s' where
  started _ _ h := he.step_started hi hs h
  spawned _ _ ht := he.step_spawned hi hs ht
  missing _ _ ht hreg := he.step_missing hr hs ht hreg
  dropped _ h := he.step_dropped hr hi hs h

theorem run (hr : Lts.run Coord.step Coord.init acts = some s) : Entries acts s := by
  refine run_induct (motive := fun acts s => Entries acts s) .init ?_ hr
  intro acts s a s' hr h hs
  exact h.step hr (.reachable ⟨acts, hr⟩) (step_of hs)

end Entries

/-- The owner finds every job that has an entry. -/
theorem OwnedBy.of_registered (hi : Inv s) {j : JobId} {t : Tracked} (ht : s.tracked j = some t)
    (hreg : t.registered = true) : s.OwnedBy t.job.user j := by
  obtain ⟨user, pid, now, hrec⟩ := (hi.jobs j t ht).record
  exact ⟨t, getTracker_ok.2 ⟨ht, hreg, rfl⟩, hrec.id_eq, rfl⟩

/-- **Orphaned jobs.** When no `spawn` is in progress, the owner finds every job whose child was
started and whose tracker has not returned, exactly if the `spawn` of none of them was dropped at
the lock of `Memory`. -/
theorem orphan_iff (hr : run step init acts = some s) (hq : s.NoSpawn) :
    (∀ user j, Started acts user j → s.Alive j → s.OwnedBy user j) ↔
      ∀ j, Dropped acts j → ¬s.Alive j := by
  have he : Entries acts s := .run hr
  have hi : Inv s := .reachable ⟨acts, hr⟩
  constructor
  · intro h j hd halive
    obtain ⟨⟨t, ht, hreg⟩, -⟩ := he.dropped j hd
    obtain ⟨t', hg, -⟩ := h _ j (he.spawned j t ht) halive
    obtain ⟨ht', hreg', -⟩ := getTracker_ok.1 hg
    rw [Option.some.inj (ht.symm.trans ht'), hreg'] at hreg
    cases hreg
  · intro h user j hst halive
    obtain ⟨t, ht, hu⟩ := he.started user j hst
    rw [← hu]
    apply OwnedBy.of_registered hi ht
    cases hreg : t.registered with
    | true => rfl
    | false =>
      rcases he.missing j t ht hreg with ⟨c, user', job, hc, -⟩ | hd
      · exact absurd hc (hq c user' job)
      · exact absurd halive (h j hd)

section Runs

/-- The connection of alice breaks while her `spawn` waits for the lock. -/
def droppedRun : List Act :=
  [.spawn 0 ⟨"alice"⟩ "sleep" (.ok ⟨⟨"job"⟩, ⟨7⟩, ⟨1⟩⟩), .cancel 0]

/-- A run on the one call `0`, which has come to its end. -/
theorem noSpawn_single {s : Coord} (call : Call) (hc : s.calls 0 = some call)
    (hend : call.pc.pending = false) (hne : ∀ c, c ≠ 0 → s.calls c = none) : s.NoSpawn := by
  intro c user job h
  by_cases h0 : c = 0
  · rw [h0, hc, Option.some.injEq] at h
    rw [h] at hend
    cases hend
  · rw [hne c h0] at h
    cases h

theorem orphan_iff_spawnRun : ∃ s, run step init spawnRun = some s ∧ s.NoSpawn ∧
    ∀ user j, Started spawnRun user j → s.Alive j → s.OwnedBy user j := by
  have hno : ∀ j, ¬Dropped spawnRun j := by
    rintro j ⟨as, a, bs, u, he, -, c, user, job, rfl, -⟩
    have hm : Act.cancel c ∈ spawnRun := by
      rw [he]
      exact List.mem_append_right _ List.mem_cons_self
    simp [spawnRun] at hm
  have hq : ∃ s, run step init spawnRun = some s ∧ s.NoSpawn := by
    refine ⟨_, rfl, noSpawn_single ⟨⟨"alice"⟩, .done (.ok (.job
      (Job.started ⟨"job"⟩ ⟨"alice"⟩ ⟨7⟩ ⟨1⟩)))⟩ rfl rfl fun c hc => ?_⟩
    exact (Function.update_of_ne hc ..).trans (Function.update_of_ne hc ..)
  obtain ⟨s, hr, hq⟩ := hq
  exact ⟨s, hr, hq, (orphan_iff hr hq).2 fun j hd => absurd hd (hno j)⟩

/-- Her job runs, and she does not find it. -/
theorem orphan_droppedRun : ¬∀ acts s, run step init acts = some s → s.NoSpawn →
    ∀ user j, Started acts user j → s.Alive j → s.OwnedBy user j := by
  intro h
  have hq : ∃ s, run step init droppedRun = some s ∧ s.NoSpawn ∧ s.Alive ⟨"job"⟩ ∧
      s.getTracker ⟨"alice"⟩ ⟨"job"⟩ = .error (.jobNotFound ⟨"job"⟩) := by
    refine ⟨_, rfl, noSpawn_single ⟨⟨"alice"⟩, .cancelled⟩ rfl rfl fun c hc => ?_,
      ⟨_, rfl, (by decide)⟩, rfl⟩
    exact (Function.update_of_ne hc ..).trans (Function.update_of_ne hc ..)
  obtain ⟨s, hr, hq, halive, herr⟩ := hq
  have hst : Started droppedRun ⟨"alice"⟩ ⟨"job"⟩ :=
    ⟨0, "sleep", ⟨⟨"job"⟩, ⟨7⟩, ⟨1⟩⟩, List.mem_cons_self, rfl, rfl⟩
  obtain ⟨t, hok, -⟩ := h droppedRun s hr hq ⟨"alice"⟩ ⟨"job"⟩ hst halive
  rw [herr] at hok
  cases hok

end Runs

end Coord

end JobRunner
