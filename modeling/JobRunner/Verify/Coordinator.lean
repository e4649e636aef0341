import JobRunner.Coordinator
import JobRunner.Verify.Fidelity

/-!
# Runs of the coordinator

`Coord.Step` is the step function as a relation, one rule for each thing a label can do. `Coord.Inv`
says of every tracked job that it is in a state its own parts reach from `JobTracker::track`, and of
every pending call which job it is on. A job is never forgotten, and from one state of a run to a
later one it makes a run of its own (`Coord.reachable_served`).
-/

namespace JobRunner

open Lts

/-! ## The moves of a job -/

namespace Tracked

/-- What a step makes of a job: its parts take the step `b`, if any, and what is in `Memory.jobs`
stays there. -/
structure Moves (t t' : Tracked) (b : Option Served.Act) : Prop where
  served : run Served.step t.served b.toList = some t'.served
  registered : t.registered = true → t'.registered = true

theorem Moves.stay (t : Tracked) : Moves t t none := ⟨rfl, id⟩

theorem Moves.reachable {t t' : Tracked} {b : Option Served.Act} (h : Moves t t' b) :
    Reachable Served.step t.served t'.served := ⟨_, h.served⟩

theorem serve_moves {t t' : Tracked} {b : Served.Act} (h : t.serve b = some t') :
    Moves t t' (some b) ∧ t'.registered = t.registered ∧ t'.held = t.held := by
  obtain ⟨served, hs, rfl⟩ := Option.map_eq_some_iff.1 h
  exact ⟨⟨run_cons_iff.2 ⟨served, hs, rfl⟩, id⟩, rfl, rfl⟩

/-- The exit a step of a job's parts hands to `wait`. -/
def exits : Served.Act → Option (ProcStatus × DateTime)
  | .pipe (.exit (.ok status) now) => some (status, now)
  | _ => none

/-- A step of a call leaves the registration alone, and no call sees a child exit. -/
structure CallMoves (t t' : Tracked) : Prop where
  moves : ∃ b, Moves t t' b ∧ b.bind exits = none
  registered : t'.registered = t.registered

theorem CallMoves.reachable {t t' : Tracked} (h : CallMoves t t') :
    Reachable Served.step t.served t'.served := by
  obtain ⟨b, hm, -⟩ := h.moves
  exact hm.reachable

theorem CallMoves.stay (t : Tracked) : CallMoves t t := ⟨⟨none, .stay t, rfl⟩, rfl⟩

section Calls

variable {t t' : Tracked} {c : Nat} {user : User} {j : JobId} {op : Op} {pc : CallPc}

theorem CallMoves.serve {b : Served.Act} {pc' : CallPc} (hb : exits b = none)
    (h : (t.serve b).map (·, pc') = some (t', pc)) : CallMoves t t' ∧ pc = pc' := by
  obtain ⟨u, hu, he⟩ := Option.map_eq_some_iff.1 h
  obtain ⟨rfl, rfl⟩ : u = t' ∧ pc' = pc := Prod.mk.inj he
  obtain ⟨hm, hreg, -⟩ := serve_moves hu
  exact ⟨⟨⟨some b, hm, hb⟩, hreg⟩, rfl⟩

/-- A `ps` is done with the record; the others wait. -/
theorem enter_cases (h : t.enter c user j op = some (t', pc)) : CallMoves t t' ∧
    ((op = .ps ∧ t' = t ∧ pc = .done (.ok (.job t.job))) ∨ (op ≠ .ps ∧ pc = .waiting op j)) := by
  cases op with
  | ps =>
    obtain ⟨rfl, rfl⟩ := Prod.mk.inj (Option.some.inj h)
    exact ⟨.stay t, .inl ⟨rfl, rfl, rfl⟩⟩
  | logs =>
    obtain ⟨hm, hpc⟩ := CallMoves.serve rfl h
    exact ⟨hm, .inr ⟨by simp, hpc⟩⟩
  | kill =>
    obtain ⟨hm, hpc⟩ := CallMoves.serve rfl h
    exact ⟨hm, .inr ⟨by simp, hpc⟩⟩

/-- Only a `kill` is answered with a record, the one its request was. -/
theorem reply_cases (h : t.reply c j op = some (t', pc)) : CallMoves t t' ∧
    ∃ res, pc = .done res ∧ ∀ job, res = .ok (.job job) →
      op = .kill ∧ t' = t ∧ t.served.pl.kills c = .done (.ok job) := by
  cases op with
  | ps => cases h
  | kill =>
    simp only [reply] at h
    split at h
    · next res hk =>
      obtain ⟨rfl, rfl⟩ := Prod.mk.inj (Option.some.inj h)
      refine ⟨.stay t, killRes j res, rfl, fun job he => ?_⟩
      cases res with
      | ok job' =>
        obtain rfl : job' = job := by simpa [killRes] using he
        exact ⟨rfl, rfl, hk⟩
      | error err => cases err <;> cases he
    · cases h
  | logs =>
    simp only [reply] at h
    split at h
    · obtain ⟨hm, rfl⟩ := CallMoves.serve rfl h
      exact ⟨hm, _, rfl, by simp⟩
    · obtain ⟨rfl, rfl⟩ := Prod.mk.inj (Option.some.inj h)
      exact ⟨.stay t, _, rfl, by simp⟩
    · split at h
      · cases h
      · obtain ⟨hm, rfl⟩ := CallMoves.serve rfl h
        exact ⟨hm, _, rfl, by simp⟩
    · cases h

theorem timeout_cases (h : t.timeout c op = some (t', pc)) :
    CallMoves t t' ∧ ∃ err, pc = .done (.error err) := by
  cases op with
  | ps => cases h
  | kill => cases h
  | logs =>
    simp only [timeout] at h
    split at h
    · obtain ⟨hm, rfl⟩ := CallMoves.serve rfl h
      exact ⟨hm, _, rfl⟩
    · cases h

theorem cancel_cases (h : t.cancel c op = some (t', pc)) : CallMoves t t' ∧ pc = .cancelled := by
  cases op with
  | ps => cases h
  | kill =>
    simp only [cancel] at h
    split at h
    · obtain ⟨rfl, rfl⟩ := Prod.mk.inj (Option.some.inj h)
      exact ⟨.stay t, rfl⟩
    · exact CallMoves.serve rfl h
  | logs =>
    simp only [cancel] at h
    split at h
    · exact CallMoves.serve rfl h
    · obtain ⟨rfl, rfl⟩ := Prod.mk.inj (Option.some.inj h)
      exact ⟨.stay t, rfl⟩
    · exact CallMoves.serve rfl h

theorem insert_cases {job : Job} (h : t.insert job = some (t', pc)) :
    t.registered = false ∧ t' = { t with registered := true, held := false } ∧
      pc = .done (.ok (.job job)) := by
  simp only [insert] at h
  split at h
  · cases h
  · next hreg =>
    obtain ⟨rfl, rfl⟩ := Prod.mk.inj (Option.some.inj h)
    exact ⟨by simpa using hreg, rfl, rfl⟩

theorem release_cases (h : t.release = some (t', pc)) :
    t' = { t with held := false } ∧ pc = .cancelled := by
  obtain ⟨rfl, rfl⟩ := Prod.mk.inj (Option.some.inj h)
  exact ⟨rfl, rfl⟩

end Calls

end Tracked

/-- A call that has not come to its end. -/
def CallPc.pending : CallPc → Bool
  | .spawning _ => true
  | .waiting _ _ => true
  | .rejected _ => false
  | .done _ => false
  | .cancelled => false

/-! ## Steps as a relation -/

namespace Coord

/-- The rules of `Coord.step`. -/
inductive Step (s : Coord) : Act → Coord → Prop
  | rejectSpawn {c user name res st} (hc : s.calls c = none) (hv : validateSpawn name = .error st) :
      Step s (.spawn c user name res) (s.setCall c { user, pc := .rejected st })
  | spawnFails {c user name err} (hc : s.calls c = none) (hv : validateSpawn name = .ok ()) :
      Step s (.spawn c user name (.error err))
        (s.setCall c { user, pc := .done (.error (.spawn err)) })
  | spawn {c user name child} (hc : s.calls c = none) (hv : validateSpawn name = .ok ())
      (hnew : s.tracked child.jobId = none) :
      Step s (.spawn c user name (.ok child))
        ((s.setTracked child.jobId (Tracked.start (child.job user))).setCall c
          { user, pc := .spawning (child.job user) })
  | rejectCall {c user op j st} (hc : s.calls c = none) (hv : validateJobId j.val = .error st) :
      Step s (.call c user op j) (s.setCall c { user, pc := .rejected st })
  | refuse {c user op j err} (hc : s.calls c = none) (hv : validateJobId j.val = .ok ())
      (hg : s.getTracker user j = .error err) :
      Step s (.call c user op j) (s.setCall c { user, pc := .done (.error err) })
  | enter {c user op j t t' pc} (hc : s.calls c = none) (hv : validateJobId j.val = .ok ())
      (hg : s.getTracker user j = .ok t) (he : t.enter c user j op = some (t', pc)) :
      Step s (.call c user op j) ((s.setTracked j t').setCall c { user, pc })
  | insert {c user job t t' pc} (hc : s.calls c = some { user, pc := .spawning job })
      (ht : s.tracked job.id = some t) (he : t.insert job = some (t', pc)) :
      Step s (.insert c) ((s.setTracked job.id t').setCall c { user, pc })
  | release {c user job t t' pc} (hc : s.calls c = some { user, pc := .spawning job })
      (ht : s.tracked job.id = some t) (he : t.release = some (t', pc)) :
      Step s (.cancel c) ((s.setTracked job.id t').setCall c { user, pc })
  | reply {c user op j t t' pc} (hc : s.calls c = some { user, pc := .waiting op j })
      (ht : s.tracked j = some t) (he : t.reply c j op = some (t', pc)) :
      Step s (.reply c) ((s.setTracked j t').setCall c { user, pc })
  | timeout {c user op j t t' pc} (hc : s.calls c = some { user, pc := .waiting op j })
      (ht : s.tracked j = some t) (he : t.timeout c op = some (t', pc)) :
      Step s (.timeout c) ((s.setTracked j t').setCall c { user, pc })
  | cancel {c user op j t t' pc} (hc : s.calls c = some { user, pc := .waiting op j })
      (ht : s.tracked j = some t) (he : t.cancel c op = some (t', pc)) :
      Step s (.cancel c) ((s.setTracked j t').setCall c { user, pc })
  | task {j b t t'} (ht : s.tracked j = some t) (hi : t.internal b = true)
      (he : t.serve b = some t') : Step s (.task j b) (s.setTracked j t')

section Rules

variable {s s' : Coord} {c : Nat} {user : User} {j : JobId}

/-- `get_tracker` finds the registered jobs of the user. -/
theorem getTracker_ok {t : Tracked} : s.getTracker user j = .ok t ↔
    s.tracked j = some t ∧ t.registered = true ∧ t.job.user = user := by
  unfold getTracker
  split
  · next ht => simp [ht]
  · next t₁ ht =>
    rw [ht, Option.some.injEq]
    have hid : t₁.job.user.id = user.id ↔ t₁.job.user = user := by
      cases t₁.job.user
      cases user
      simp
    split
    · next hreg =>
      by_cases hu : t₁.job.user.id = user.id
      · rw [if_neg (by simpa using hu), Except.ok.injEq]
        constructor
        · rintro rfl
          exact ⟨rfl, hreg, hid.1 hu⟩
        · exact fun h => h.1
      · rw [if_pos hu]
        constructor
        · intro h
          cases h
        · rintro ⟨rfl, -, h⟩
          exact absurd (hid.2 h) hu
    · next hreg =>
      constructor
      · intro h
        cases h
      · rintro ⟨rfl, h, -⟩
        exact absurd h hreg

/-- Its one error does not tell why. -/
theorem getTracker_error {err : CoordError} (h : s.getTracker user j = .error err) :
    err = .jobNotFound j := by
  unfold getTracker at h
  split at h
  · exact (Except.error.inj h).symm
  · split at h
    · split at h
      · exact (Except.error.inj h).symm
      · cases h
    · exact (Except.error.inj h).symm

theorem onJob_iff {f : Tracked → Option (Tracked × CallPc)} : s.onJob c user j f = some s' ↔
    ∃ t t' pc, s.tracked j = some t ∧ f t = some (t', pc) ∧
      s' = (s.setTracked j t').setCall c { user, pc } := by
  unfold onJob
  constructor
  · intro h
    split at h
    · cases h
    · next t ht =>
      obtain ⟨⟨t', pc⟩, hf, rfl⟩ := Option.map_eq_some_iff.1 h
      exact ⟨t, t', pc, ht, hf, rfl⟩
  · rintro ⟨t, t', pc, ht, hf, rfl⟩
    simp [ht, hf]

theorem stepPending_iff {f : Job → Tracked → Option (Tracked × CallPc)}
    {g : Op → JobId → Tracked → Option (Tracked × CallPc)} :
    s.stepPending c f g = some s' ↔
      (∃ user job t t' pc, s.calls c = some { user, pc := .spawning job } ∧
        s.tracked job.id = some t ∧ f job t = some (t', pc) ∧
        s' = (s.setTracked job.id t').setCall c { user, pc }) ∨
      (∃ user op j t t' pc, s.calls c = some { user, pc := .waiting op j } ∧
        s.tracked j = some t ∧ g op j t = some (t', pc) ∧
        s' = (s.setTracked j t').setCall c { user, pc }) := by
  unfold stepPending
  split
  · next user job hc =>
    rw [onJob_iff]
    constructor
    · rintro ⟨t, t', pc, ht, hf, rfl⟩
      exact .inl ⟨user, job, t, t', pc, hc, ht, hf, rfl⟩
    · rintro (⟨user', job', t, t', pc, hc', ht, hf, rfl⟩ | ⟨_, _, _, _, _, _, hc', _⟩)
      · rw [hc] at hc'
        cases hc'
        exact ⟨t, t', pc, ht, hf, rfl⟩
      · rw [hc] at hc'
        cases hc'
  · next user op j hc =>
    rw [onJob_iff]
    constructor
    · rintro ⟨t, t', pc, ht, hf, rfl⟩
      exact .inr ⟨user, op, j, t, t', pc, hc, ht, hf, rfl⟩
    · rintro (⟨_, _, _, _, _, hc', _⟩ | ⟨user', op', j', t, t', pc, hc', ht, hf, rfl⟩)
      · rw [hc] at hc'
        cases hc'
      · rw [hc] at hc'
        cases hc'
        exact ⟨t, t', pc, ht, hf, rfl⟩
  · next hsp hwt =>
    constructor
    · intro h
      cases h
    · rintro (⟨user, job, _, _, _, hc, _⟩ | ⟨user, op, j, _, _, _, hc, _⟩)
      · exact absurd hc (hsp user job)
      · exact absurd hc (hwt user op j)

theorem stepSpawn_step {name : String} {res : Except SpawnError Spawned} (hc : s.calls c = none)
    (h : s.stepSpawn c user name res = some s') : Step s (.spawn c user name res) s' := by
  unfold stepSpawn at h
  split at h
  · next st hv =>
    cases h
    exact .rejectSpawn hc hv
  · next hv =>
    split at h
    · cases h
      exact .spawnFails hc hv
    · split at h
      · cases h
      · next hnew =>
        cases h
        exact .spawn hc hv hnew

theorem stepCall_step {op : Op} (hc : s.calls c = none) (h : s.stepCall c user op j = some s') :
    Step s (.call c user op j) s' := by
  unfold stepCall at h
  split at h
  · next st hv =>
    cases h
    exact .rejectCall hc hv
  · next hv =>
    split at h
    · next err hg =>
      cases h
      exact .refuse hc hv hg
    · next t hg =>
      obtain ⟨t₁, t', pc, ht₁, he, rfl⟩ := onJob_iff.1 h
      obtain rfl : t₁ = t := Option.some.inj (ht₁.symm.trans (getTracker_ok.1 hg).1)
      exact .enter hc hv hg he

theorem step_of {a : Act} (h : s.step a = some s') : Step s a s' := by
  cases a with
  | spawn c user name res =>
    simp only [step, Option.isNone_iff_eq_none, Option.ite_none_right_eq_some] at h
    exact stepSpawn_step h.1 h.2
  | call c user op j =>
    simp only [step, Option.isNone_iff_eq_none, Option.ite_none_right_eq_some] at h
    exact stepCall_step h.1 h.2
  | insert c =>
    rcases stepPending_iff.1 h with
      ⟨_, _, _, _, _, hc, ht, he, rfl⟩ | ⟨_, _, _, _, _, _, _, _, he, _⟩
    · exact .insert hc ht he
    · cases he
  | reply c =>
    rcases stepPending_iff.1 h with
      ⟨_, _, _, _, _, _, _, he, _⟩ | ⟨_, _, _, _, _, _, hc, ht, he, rfl⟩
    · cases he
    · exact .reply hc ht he
  | timeout c =>
    rcases stepPending_iff.1 h with
      ⟨_, _, _, _, _, _, _, he, _⟩ | ⟨_, _, _, _, _, _, hc, ht, he, rfl⟩
    · cases he
    · exact .timeout hc ht he
  | cancel c =>
    rcases stepPending_iff.1 h with
      ⟨_, _, _, _, _, hc, ht, he, rfl⟩ | ⟨_, _, _, _, _, _, hc, ht, he, rfl⟩
    · exact .release hc ht he
    · exact .cancel hc ht he
  | task j b =>
    simp only [step] at h
    split at h
    · cases h
    · next t ht =>
      simp only [Option.ite_none_right_eq_some, Option.map_eq_some_iff] at h
      obtain ⟨hi, t', he, rfl⟩ := h
      exact .task ht hi he

/-- The rules are those of the step function. -/
theorem step_iff {a : Act} : s.step a = some s' ↔ Step s a s' := by
  refine ⟨step_of, fun h => ?_⟩
  cases h with
  | rejectSpawn hc hv => simp [step, stepSpawn, hc, hv]
  | spawnFails hc hv => simp [step, stepSpawn, hc, hv]
  | spawn hc hv hnew => simp [step, stepSpawn, hc, hv, hnew]
  | rejectCall hc hv => simp [step, stepCall, hc, hv]
  | refuse hc hv hg => simp [step, stepCall, hc, hv, hg]
  | enter hc hv hg he =>
    have ht := (getTracker_ok.1 hg).1
    simp [step, stepCall, onJob, hc, hv, hg, ht, he]
  | insert hc ht he => exact stepPending_iff.2 (.inl ⟨_, _, _, _, _, hc, ht, he, rfl⟩)
  | release hc ht he => exact stepPending_iff.2 (.inl ⟨_, _, _, _, _, hc, ht, he, rfl⟩)
  | reply hc ht he => exact stepPending_iff.2 (.inr ⟨_, _, _, _, _, _, hc, ht, he, rfl⟩)
  | timeout hc ht he => exact stepPending_iff.2 (.inr ⟨_, _, _, _, _, _, hc, ht, he, rfl⟩)
  | cancel hc ht he => exact stepPending_iff.2 (.inr ⟨_, _, _, _, _, _, hc, ht, he, rfl⟩)
  | task ht hi he => simp [step, ht, hi, he]

end Rules

/-! ## The jobs across a step -/

section Jobs

variable {s s' : Coord}

@[simp] theorem setTracked_self (s : Coord) (j : JobId) (t : Tracked) :
    (s.setTracked j t).tracked j = some t := Function.update_self ..

theorem setTracked_of_ne {j j' : JobId} (h : j' ≠ j) (s : Coord) (t : Tracked) :
    (s.setTracked j t).tracked j' = s.tracked j' := Function.update_of_ne h ..

@[simp] theorem setTracked_calls (s : Coord) (j : JobId) (t : Tracked) :
    (s.setTracked j t).calls = s.calls := rfl

@[simp] theorem setCall_tracked (s : Coord) (c : Nat) (call : Call) :
    (s.setCall c call).tracked = s.tracked := rfl

@[simp] theorem setCall_self (s : Coord) (c : Nat) (call : Call) :
    (s.setCall c call).calls c = some call := Function.update_self ..

theorem setCall_of_ne {c c' : Nat} (h : c' ≠ c) (s : Coord) (call : Call) :
    (s.setCall c call).calls c' = s.calls c' := Function.update_of_ne h ..

/-- What label `a` makes of job `j`. An exit of its child is a `task` label, and only an `insert`
registers it. -/
structure JobStep (s : Coord) (a : Act) (j : JobId) (t t' : Tracked) : Prop where
  moves : ∃ b, Tracked.Moves t t' b ∧
    ((∃ b', b = some b' ∧ a = .task j b') ∨ (b.bind Tracked.exits = none ∧ ∀ b, a ≠ .task j b))
  registered : t'.registered = t.registered ∨
    ∃ c user job, a = .insert c ∧ s.calls c = some { user, pc := .spawning job } ∧ job.id = j

theorem JobStep.stay {a : Act} {j : JobId} (t : Tracked) (ha : ∀ b, a ≠ .task j b) :
    JobStep s a j t t where
  moves := ⟨none, .stay t, .inr ⟨rfl, ha⟩⟩
  registered := .inl rfl

theorem JobStep.call {a : Act} {j : JobId} {t t' : Tracked} (h : Tracked.CallMoves t t')
    (ha : ∀ b, a ≠ .task j b) : JobStep s a j t t' where
  moves := by
    obtain ⟨b, hm, hb⟩ := h.moves
    exact ⟨b, hm, .inr ⟨hb, ha⟩⟩
  registered := .inl h.registered

theorem JobStep.reachable {a : Act} {j : JobId} {t t' : Tracked} (h : JobStep s a j t t') :
    Reachable Served.step t.served t'.served := by
  obtain ⟨b, hm, -⟩ := h.moves
  exact hm.reachable

/-- A label starts a job, moves one on, or leaves them alone. -/
theorem Step.jobs {a : Act} (h : Step s a s') :
    (s'.tracked = s.tracked ∧ ∀ j b, a ≠ .task j b) ∨
    (∃ (child : Spawned) (user : User), s.tracked child.jobId = none ∧
      s'.tracked = (s.setTracked child.jobId (Tracked.start (child.job user))).tracked ∧
      ∀ j b, a ≠ .task j b) ∨
    (∃ j t t', s.tracked j = some t ∧ JobStep s a j t t' ∧
      s'.tracked = (s.setTracked j t').tracked ∧ ∀ j' b, a = .task j' b → j' = j) := by
  cases h with
  | rejectSpawn hc hv => exact .inl ⟨rfl, by simp⟩
  | spawnFails hc hv => exact .inl ⟨rfl, by simp⟩
  | spawn hc hv hnew => exact .inr (.inl ⟨_, _, hnew, rfl, by simp⟩)
  | rejectCall hc hv => exact .inl ⟨rfl, by simp⟩
  | refuse hc hv hg => exact .inl ⟨rfl, by simp⟩
  | enter hc hv hg he =>
    have hm := (Tracked.enter_cases he).1
    exact .inr (.inr ⟨_, _, _, (getTracker_ok.1 hg).1, .call hm (by simp), rfl, by simp⟩)
  | @insert c user job t t' pc hc ht he =>
    have hj : JobStep s (.insert c) job.id t t' := by
      obtain ⟨-, rfl, -⟩ := Tracked.insert_cases he
      exact ⟨⟨none, ⟨rfl, fun _ => rfl⟩, .inr ⟨rfl, by simp⟩⟩, .inr ⟨c, user, job, rfl, hc, rfl⟩⟩
    exact .inr (.inr ⟨_, _, _, ht, hj, rfl, by simp⟩)
  | @release c user job t t' pc hc ht he =>
    have hj : JobStep s (.cancel c) job.id t t' := by
      obtain ⟨rfl, -⟩ := Tracked.release_cases he
      exact ⟨⟨none, ⟨rfl, id⟩, .inr ⟨rfl, by simp⟩⟩, .inl rfl⟩
    exact .inr (.inr ⟨_, _, _, ht, hj, rfl, by simp⟩)
  | reply hc ht he =>
    have hm := (Tracked.reply_cases he).1
    exact .inr (.inr ⟨_, _, _, ht, .call hm (by simp), rfl, by simp⟩)
  | timeout hc ht he =>
    have hm := (Tracked.timeout_cases he).1
    exact .inr (.inr ⟨_, _, _, ht, .call hm (by simp), rfl, by simp⟩)
  | cancel hc ht he =>
    have hm := (Tracked.cancel_cases he).1
    exact .inr (.inr ⟨_, _, _, ht, .call hm (by simp), rfl, by simp⟩)
  | task ht hi he =>
    obtain ⟨hm, hreg, -⟩ := Tracked.serve_moves he
    refine .inr (.inr ⟨_, _, _, ht, ⟨⟨_, hm, .inl ⟨_, rfl, rfl⟩⟩, .inl hreg⟩, rfl, ?_⟩)
    intro j' b hb
    cases hb
    rfl

/-- A tracked job is never forgotten. -/
theorem Step.stays {a : Act} (h : Step s a s') {j : JobId} {t : Tracked}
    (ht : s.tracked j = some t) : ∃ t', s'.tracked j = some t' ∧ JobStep s a j t t' := by
  rcases h.jobs with ⟨he, ha⟩ | ⟨child, user, hnew, he, ha⟩ | ⟨j', t₁, t', ht₁, hm, he, ha⟩
  · exact ⟨t, by rw [he, ht], .stay t (ha j)⟩
  · have hj : j ≠ child.jobId := by
      rintro rfl
      rw [ht] at hnew
      cases hnew
    exact ⟨t, by rw [he, setTracked_of_ne hj, ht], .stay t (ha j)⟩
  · by_cases hj : j = j'
    · subst hj
      obtain rfl : t₁ = t := Option.some.inj (ht₁.symm.trans ht)
      exact ⟨t', by rw [he, setTracked_self], hm⟩
    · exact ⟨t, by rw [he, setTracked_of_ne hj, ht], .stay t fun b hb => hj (ha j b hb)⟩

/-- A job is new, or was tracked before the step. -/
theorem Step.came {a : Act} (h : Step s a s') {j : JobId} {t' : Tracked}
    (ht' : s'.tracked j = some t') :
    (∃ t, s.tracked j = some t ∧ JobStep s a j t t') ∨
    (s.tracked j = none ∧ (∀ b, a ≠ .task j b) ∧ ∃ (child : Spawned) (user : User),
      child.jobId = j ∧ t' = Tracked.start (child.job user)) := by
  cases ht : s.tracked j with
  | some t =>
    obtain ⟨t₁, ht₁, hm⟩ := h.stays ht
    obtain rfl : t₁ = t' := Option.some.inj (ht₁.symm.trans ht')
    exact .inl ⟨t, rfl, hm⟩
  | none =>
    rcases h.jobs with ⟨he, -⟩ | ⟨child, user, -, he, ha⟩ | ⟨j', t, t₁, ht₁, -, he, -⟩
    · rw [he, ht] at ht'
      cases ht'
    · have hj : j = child.jobId := by
        by_contra hj
        rw [he, setTracked_of_ne hj, ht] at ht'
        cases ht'
      subst hj
      rw [he, setTracked_self] at ht'
      exact .inr ⟨rfl, ha _, child, user, rfl, (Option.some.inj ht').symm⟩
    · have hj : j ≠ j' := by
        rintro rfl
        rw [ht] at ht₁
        cases ht₁
      rw [he, setTracked_of_ne hj, ht] at ht'
      cases ht'

theorem setCall_cases {c c' : Nat} {call call' : Call}
    (h : (s.setCall c call).calls c' = some call') :
    (c' = c ∧ call = call') ∨ (c' ≠ c ∧ s.calls c' = some call') := by
  by_cases hc : c' = c
  · subst hc
    rw [setCall_self] at h
    exact .inl ⟨rfl, Option.some.inj h⟩
  · rw [setCall_of_ne hc] at h
    exact .inr ⟨hc, h⟩

/-- A call is as before the step, has just spawned its job, has just passed the owner check, or has
come to its end. -/
theorem Step.called {a : Act} (h : Step s a s') {c : Nat} {call : Call}
    (hc : s'.calls c = some call) :
    (s.calls c = some call ∧ a ≠ .insert c) ∨
    (∃ user name child, a = .spawn c user name (.ok child) ∧
      call = { user, pc := .spawning (child.job user) } ∧ s.tracked child.jobId = none ∧
      s'.tracked child.jobId = some (Tracked.start (child.job user))) ∨
    (∃ op j t, call.pc = .waiting op j ∧ s.getTracker call.user j = .ok t) ∨
    call.pc.pending = false := by
  cases h with
  | rejectSpawn _ _ | spawnFails _ _ | rejectCall _ _ | refuse _ _ _ =>
    rcases setCall_cases hc with ⟨rfl, rfl⟩ | ⟨-, hold⟩
    · exact .inr (.inr (.inr rfl))
    · exact .inl ⟨hold, by simp⟩
  | spawn _ _ hnew =>
    rcases setCall_cases hc with ⟨rfl, rfl⟩ | ⟨-, hold⟩
    · exact .inr (.inl ⟨_, _, _, rfl, rfl, hnew, by simp⟩)
    · exact .inl ⟨hold, by simp⟩
  | enter _ _ hg he =>
    rcases setCall_cases hc with ⟨rfl, rfl⟩ | ⟨-, hold⟩
    · rcases (Tracked.enter_cases he).2 with ⟨-, -, rfl⟩ | ⟨-, rfl⟩
      · exact .inr (.inr (.inr rfl))
      · exact .inr (.inr (.inl ⟨_, _, _, rfl, hg⟩))
    · exact .inl ⟨hold, by simp⟩
  | insert _ _ he =>
    rcases setCall_cases hc with ⟨rfl, rfl⟩ | ⟨hne, hold⟩
    · obtain ⟨-, -, rfl⟩ := Tracked.insert_cases he
      exact .inr (.inr (.inr rfl))
    · refine .inl ⟨hold, fun ha => ?_⟩
      cases ha
      exact hne rfl
  | release _ _ he =>
    rcases setCall_cases hc with ⟨rfl, rfl⟩ | ⟨-, hold⟩
    · obtain ⟨-, rfl⟩ := Tracked.release_cases he
      exact .inr (.inr (.inr rfl))
    · exact .inl ⟨hold, by simp⟩
  | reply _ _ he =>
    rcases setCall_cases hc with ⟨rfl, rfl⟩ | ⟨-, hold⟩
    · obtain ⟨-, res, rfl, -⟩ := Tracked.reply_cases he
      exact .inr (.inr (.inr rfl))
    · exact .inl ⟨hold, by simp⟩
  | timeout _ _ he =>
    rcases setCall_cases hc with ⟨rfl, rfl⟩ | ⟨-, hold⟩
    · obtain ⟨-, err, rfl⟩ := Tracked.timeout_cases he
      exact .inr (.inr (.inr rfl))
    · exact .inl ⟨hold, by simp⟩
  | cancel _ _ he =>
    rcases setCall_cases hc with ⟨rfl, rfl⟩ | ⟨-, hold⟩
    · obtain ⟨-, rfl⟩ := Tracked.cancel_cases he
      exact .inr (.inr (.inr rfl))
    · exact .inl ⟨hold, by simp⟩
  | task _ _ _ => exact .inl ⟨hc, by simp⟩

/-- A call stays as it is until a label of its own ends it. -/
theorem Step.keeps {a : Act} (h : Step s a s') {c : Nat} {call : Call}
    (hc : s.calls c = some call) :
    s'.calls c = some call ∨ (call.pc.pending = true ∧
      (a = .insert c ∨ a = .reply c ∨ a = .timeout c ∨ a = .cancel c) ∧
      ∃ pc, s'.calls c = some { user := call.user, pc } ∧ pc.pending = false) := by
  have other : ∀ {c' : Nat} {call' : Call} (u : Coord), u.calls = s.calls → c' ≠ c →
      (u.setCall c' call').calls c = some call := by
    intro c' call' u hu hne
    rw [setCall_of_ne (Ne.symm hne), hu, hc]
  have fresh : ∀ {c' : Nat}, s.calls c' = none → c' ≠ c := by
    intro c' hnone he
    rw [he, hc] at hnone
    cases hnone
  -- the call a label of call `c'` ends is `call`, or another one
  have ends : ∀ {c' : Nat} {user : User} {pc pc' : CallPc} (u : Coord), u.calls = s.calls →
      s.calls c' = some { user, pc } → pc.pending = true → pc'.pending = false →
      (a = .insert c' ∨ a = .reply c' ∨ a = .timeout c' ∨ a = .cancel c') →
      (u.setCall c' { user, pc := pc' }).calls c = some call ∨ (call.pc.pending = true ∧
        (a = .insert c ∨ a = .reply c ∨ a = .timeout c ∨ a = .cancel c) ∧
        ∃ pc, (u.setCall c' { user, pc := pc' }).calls c = some { user := call.user, pc } ∧
          pc.pending = false) := by
    intro c' user pc pc' u hu hc' hp hp' ha
    by_cases he : c' = c
    · subst he
      rw [hc', Option.some.injEq] at hc
      subst hc
      exact .inr ⟨hp, ha, pc', setCall_self .., hp'⟩
    · exact .inl (other u hu he)
  cases h with
  | rejectSpawn hn _ => exact .inl (other s rfl (fresh hn))
  | spawnFails hn _ => exact .inl (other s rfl (fresh hn))
  | spawn hn _ _ => exact .inl (other _ rfl (fresh hn))
  | rejectCall hn _ => exact .inl (other s rfl (fresh hn))
  | refuse hn _ _ => exact .inl (other s rfl (fresh hn))
  | enter hn _ _ _ => exact .inl (other _ rfl (fresh hn))
  | insert hc' _ he =>
    obtain ⟨-, -, rfl⟩ := Tracked.insert_cases he
    exact ends _ rfl hc' rfl rfl (.inl rfl)
  | release hc' _ he =>
    obtain ⟨-, rfl⟩ := Tracked.release_cases he
    exact ends _ rfl hc' rfl rfl (.inr (.inr (.inr rfl)))
  | reply hc' _ he =>
    obtain ⟨-, res, rfl, -⟩ := Tracked.reply_cases he
    exact ends _ rfl hc' rfl rfl (.inr (.inl rfl))
  | timeout hc' _ he =>
    obtain ⟨-, err, rfl⟩ := Tracked.timeout_cases he
    exact ends _ rfl hc' rfl rfl (.inr (.inr (.inl rfl)))
  | cancel hc' _ he =>
    obtain ⟨-, rfl⟩ := Tracked.cancel_cases he
    exact ends _ rfl hc' rfl rfl (.inr (.inr (.inr rfl)))
  | task _ _ _ => exact .inl hc

/-- A job makes a run of its own between two states of a run. -/
theorem reachable_served (hr : Reachable step s s') {j : JobId} {t : Tracked}
    (ht : s.tracked j = some t) :
    ∃ t', s'.tracked j = some t' ∧ Reachable Served.step t.served t'.served ∧
      (t.registered = true → t'.registered = true) := by
  refine hr.invariant (I := fun u => ∃ t', u.tracked j = some t' ∧
    Reachable Served.step t.served t'.served ∧ (t.registered = true → t'.registered = true))
    ⟨t, ht, .refl _, id⟩ ?_
  rintro u a u' ⟨t', ht', hrt, hreg⟩ hs
  obtain ⟨t'', ht'', hm⟩ := (step_of hs).stays ht'
  obtain ⟨b, hmv, -⟩ := hm.moves
  exact ⟨t'', ht'', hrt.trans hmv.reachable, fun h => hmv.registered (hreg h)⟩

end Jobs

end Coord

/-! ## A job of its own -/

namespace Tracked

/-- A state the parts of job `j` reach from `JobTracker::track`. -/
def Of (j : JobId) (t : Tracked) : Prop :=
  ∃ user pid now, Reachable Served.step (Served.start (Job.started j user pid now)) t.served

namespace Of

variable {j : JobId} {t t' : Tracked}

theorem start (child : Coord.Spawned) (user : User) :
    Of child.jobId (Tracked.start (child.job user)) :=
  ⟨user, child.pid, child.now, .refl _⟩

theorem move (h : Of j t) (hr : Reachable Served.step t.served t'.served) : Of j t' := by
  obtain ⟨user, pid, now, h⟩ := h
  exact ⟨user, pid, now, h.trans hr⟩

theorem inv (h : Of j t) : ∃ user pid now, Served.Inv (Job.started j user pid now) t.served ∧
    Reachable Pipeline.step (Pipeline.start (Job.started j user pid now)) t.served.pl := by
  obtain ⟨user, pid, now, h⟩ := h
  have h₀ : Served.Inv (Job.started j user pid now) (Served.start (Job.started j user pid now)) :=
    .start rfl
  exact ⟨user, pid, now, h₀.reachable h⟩

theorem record (h : Of j t) : ∃ user pid now,
    Tracker.RecordInv (Job.started j user pid now) t.served.pl.trk := by
  obtain ⟨user, pid, now, -, hr⟩ := h.inv
  exact ⟨user, pid, now, .run rfl (Pipeline.reachable_trk hr)⟩

theorem endedAt_iff (h : Of j t) :
    t.job.endedAt.isSome = true ↔ t.job.state.isExited = true := by
  obtain ⟨user, pid, now, h⟩ := h.record
  exact h.endedAt_iff rfl

/-- Its record goes through its life cycle. -/
theorem lifeCycle (h : Of j t) (hr : Reachable Served.step t.served t'.served) :
    Tracker.LifeCycle t.job t'.job := by
  obtain ⟨user, pid, now, hi, -⟩ := h.inv
  obtain ⟨user', pid', now', hrec⟩ := h.record
  exact (Tracker.lifeCycle_run rfl hrec (Pipeline.reachable_trk (hi.reachable hr).2)).2

end Of

end Tracked

/-! ## The invariant -/

namespace Coord

/-- What a pending call knows of its job. -/
def Known (s : Coord) (call : Call) : Prop :=
  match call.pc with
  | .spawning job => ∃ t, s.tracked job.id = some t ∧ t.registered = false ∧ t.job.user = call.user
  | .waiting _ j => ∃ t, s.tracked j = some t ∧ t.registered = true ∧ t.job.user = call.user
  | _ => True

structure Inv (s : Coord) : Prop where
  jobs : ∀ j t, s.tracked j = some t → t.Of j
  known : ∀ c call, s.calls c = some call → s.Known call
  unique : ∀ c c' user user' job job', s.calls c = some { user, pc := .spawning job } →
    s.calls c' = some { user := user', pc := .spawning job' } → job.id = job'.id → c = c'

namespace Inv

variable {s s' : Coord}

theorem init : Inv init where
  jobs j t ht := by cases ht
  known c call hc := by cases hc
  unique c _ _ _ _ _ hc := by cases hc

theorem user_eq (h : Inv s) {j : JobId} {t t' : Tracked} (ht : s.tracked j = some t)
    (hr : Reachable Served.step t.served t'.served) : t'.job.user = t.job.user :=
  ((h.jobs j t ht).lifeCycle hr).user_eq

theorem spawning_user (h : Inv s) {c : Nat} {user : User} {job : Job} {t : Tracked}
    (hc : s.calls c = some { user, pc := .spawning job }) (ht : s.tracked job.id = some t) :
    t.job.user = user := by
  obtain ⟨t', ht', -, hu⟩ := h.known c _ hc
  rwa [Option.some.inj (ht.symm.trans ht')]

theorem waiting_user (h : Inv s) {c : Nat} {user : User} {op : Op} {j : JobId} {t : Tracked}
    (hc : s.calls c = some { user, pc := .waiting op j }) (ht : s.tracked j = some t) :
    t.job.user = user := by
  obtain ⟨t', ht', -, hu⟩ := h.known c _ hc
  rwa [Option.some.inj (ht.symm.trans ht')]

theorem jobs_step (h : Inv s) {a : Act} (hs : Step s a s') (j : JobId) (t' : Tracked)
    (ht' : s'.tracked j = some t') : t'.Of j := by
  rcases hs.came ht' with ⟨t, ht, hm⟩ | ⟨-, -, child, user, rfl, rfl⟩
  · exact (h.jobs j t ht).move hm.reachable
  · exact .start child user

/-- What a call knows stays true, but for the insertion of the job it has spawned. -/
theorem known_step (h : Inv s) {a : Act} (hs : Step s a s') {call : Call} (hk : s.Known call)
    (hins : ∀ c user job job', a = .insert c → s.calls c = some { user, pc := .spawning job } →
      call.pc = .spawning job' → job.id ≠ job'.id) : s'.Known call := by
  obtain ⟨user, pc⟩ := call
  cases pc with
  | spawning job =>
    obtain ⟨t, ht, hreg, hu⟩ := hk
    obtain ⟨t', ht', hm⟩ := hs.stays ht
    refine ⟨t', ht', ?_, (h.user_eq ht hm.reachable).trans hu⟩
    rcases hm.registered with he | ⟨c, user', job', rfl, hc, hid⟩
    · rw [he, hreg]
    · exact absurd hid (hins c user' job' job rfl hc rfl)
  | waiting op j =>
    obtain ⟨t, ht, hreg, hu⟩ := hk
    obtain ⟨t', ht', hm⟩ := hs.stays ht
    obtain ⟨b, hmv, -⟩ := hm.moves
    exact ⟨t', ht', hmv.registered hreg, (h.user_eq ht hmv.reachable).trans hu⟩
  | rejected st => trivial
  | done res => trivial
  | cancelled => trivial

theorem known_of_not_pending {call : Call} (h : call.pc.pending = false) : s.Known call := by
  obtain ⟨user, pc⟩ := call
  cases pc with
  | spawning job => cases h
  | waiting op j => cases h
  | rejected st => trivial
  | done res => trivial
  | cancelled => trivial

theorem step (h : Inv s) {a : Act} (hs : Step s a s') : Inv s' where
  jobs := h.jobs_step hs
  known c call hc := by
    rcases hs.called hc with
      ⟨hold, ha⟩ | ⟨user, name, child, -, rfl, -, ht'⟩ | ⟨op, j, t, hpc, hg⟩ | hend
    · refine h.known_step hs (h.known c call hold) fun c₁ user job job' hins hc₁ hpc hid => ha ?_
      obtain ⟨user', pc⟩ := call
      subst hpc
      rw [hins, h.unique c₁ c user user' job job' hc₁ hold hid]
    · exact ⟨_, ht', rfl, rfl⟩
    · obtain ⟨ht, hreg, hu⟩ := getTracker_ok.1 hg
      have hk : s.Known call := by
        unfold Known
        rw [hpc]
        exact ⟨t, ht, hreg, hu⟩
      refine h.known_step hs hk fun c₁ user job job' _ _ hsp _ => ?_
      rw [hpc] at hsp
      cases hsp
    · exact known_of_not_pending hend
  unique c c' user user' job job' hc hc' hid := by
    -- the id of a job just spawned is that of no job spawned before
    have hfresh : ∀ {c : Nat} {user : User} {job : Job} {child : Spawned},
        s.calls c = some { user, pc := .spawning job } → s.tracked child.jobId = none →
        job.id ≠ child.jobId := by
      intro c user job child hc hnew hid
      obtain ⟨t, ht, -⟩ := h.known c _ hc
      rw [hid, hnew] at ht
      cases ht
    rcases hs.called hc with
      ⟨hold, -⟩ | ⟨u, name, child, ha, he, hnew, -⟩ | ⟨_, _, _, hpc, -⟩ | hend
    · rcases hs.called hc' with
        ⟨hold', -⟩ | ⟨u, name, child, -, he, hnew, -⟩ | ⟨_, _, _, hpc, -⟩ | hend
      · exact h.unique c c' user user' job job' hold hold' hid
      · cases he
        exact absurd hid (hfresh hold hnew)
      · cases hpc
      · cases hend
    · rcases hs.called hc' with ⟨hold', -⟩ | ⟨u', name', child', ha', -⟩ | ⟨_, _, _, hpc, -⟩ | hend
      · cases he
        exact absurd hid.symm (hfresh hold' hnew)
      · rw [ha] at ha'
        cases ha'
        rfl
      · cases hpc
      · cases hend
    · cases hpc
    · cases hend

theorem reachable (hr : Reachable Coord.step Coord.init s) : Inv s :=
  hr.invariant (I := Inv) .init fun _ _ _ h hs => h.step (step_of hs)

end Inv

/-- The id of a spawned job is not yet in `Memory.jobs` when the job is inserted. -/
theorem insert_enabled {s : Coord} (hr : Reachable step init s) {c : Nat} {user : User} {job : Job}
    (hc : s.calls c = some { user, pc := .spawning job }) : ∃ s', s.step (.insert c) = some s' := by
  obtain ⟨t, ht, hreg, -⟩ := (Inv.reachable hr).known c _ hc
  have he : t.insert job = some ({ t with registered := true, held := false },
      .done (.ok (.job job))) := by
    simp [Tracked.insert, hreg]
  exact ⟨_, step_iff.2 (.insert hc ht he)⟩

end Coord

end JobRunner
